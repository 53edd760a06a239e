import StagedJoin.Proofs.Bound.Widening
import StagedJoin.Proofs.Query.Reachable

/-!
Binding is type sound. Whatever way a condition or a cell has come, its values are
taken by their types; a tag for a field is left only where the field has no known
type, and no condition speaks of a slot behind its join. A condition is bound with
the schemas of the slots up to its join, and the slots that follow change none of
them.
-/
namespace StagedJoin

/-- `inner` is the query itself or stands in one of its subqueries, at any depth. -/
inductive BoundQuery.Within (inner : BoundQuery) : BoundQuery → Prop
  | refl : inner.Within inner
  | subquery {outer mid : BoundQuery} {j : BoundJoin} {tablePrefix : Option String} :
      j ∈ outer.joins → j.source = .subquery mid tablePrefix → inner.Within mid → inner.Within outer

/-- The values of a join have their types, given the schemas of all slots. -/
structure BoundJoin.WellTyped (view : SchemaView) (schemas : List (Option String))
    (j : BoundJoin) : Prop where
  param_accepts : ∀ v t, (v, .type t) ∈ j.on.params → t.accepts v = true
  cell_accepts : ∀ columns rowCount cells, j.source = .values columns rowCount cells →
    ∀ v t, (v, t) ∈ cells → t.accepts v = true
  tag_unknown : ∀ slot name, .field slot name ∈ j.on.tags →
    ∀ schema, schemas[slot]?.join = some schema → view.fieldType? schema name = none
  slot_le : ∀ s ∈ j.on.slots, s ≤ j.slot + j.arity - 1

namespace Context

variable {ctx : Context}

/-- A tag is left for a field only if the field has no known type. -/
theorem resolve_eq_field {tag : TypeTag} {slot : Nat} {name : String}
    (h : ctx.resolve tag = .field slot name) :
    tag = .field slot name ∧
      ∀ schema, ctx.schema? slot = some schema → ctx.view.fieldType? schema name = none := by
  cases tag with
  | any => cases h
  | type t => cases h
  | field slot' name' =>
    change ctx.tag slot' name' = .field slot name at h
    unfold tag at h
    split at h
    · cases h
    · rename_i hnone
      cases h
      refine ⟨rfl, ?_⟩
      intro schema hschema
      rw [hschema] at hnone
      exact hnone

theorem mem_slots_of_resolve {tag : TypeTag} {s : Nat} (h : s ∈ (ctx.resolve tag).slots) :
    s ∈ tag.slots := by
  cases hr : ctx.resolve tag with
  | any => rw [hr] at h; cases h
  | type t => rw [hr] at h; cases h
  | field slot name =>
    rw [(resolve_eq_field hr).1, ← hr]
    exact h

end Context

theorem BoundCondition.mem_slots_of_mem_tags {c : BoundCondition} {tag : TypeTag}
    (ht : tag ∈ c.tags) {s : Nat} (hs : s ∈ tag.slots) : s ∈ c.slots := by
  rw [BoundCondition.tags, List.mem_append] at ht
  rw [BoundCondition.slots, List.mem_append]
  rcases ht with ht | ht
  · exact .inl (Term.mem_slots_of_mem_tags ht hs)
  · obtain ⟨r, hr, rfl⟩ := List.mem_map.mp ht
    exact .inr (List.mem_flatMap.mpr ⟨r, hr, hs⟩)

/-- Schemas behind the slots of a join do not matter to it. -/
theorem BoundJoin.WellTyped.append {view : SchemaView} {schemas : List (Option String)}
    {j : BoundJoin} (h : j.WellTyped view schemas) (hlast : j.slot + j.arity ≤ schemas.length)
    (hpos : 0 < schemas.length) (more : List (Option String)) :
    j.WellTyped view (schemas ++ more) where
  param_accepts := h.param_accepts
  cell_accepts := h.cell_accepts
  tag_unknown := by
    intro slot name htag schema hschema
    have hslot : slot ∈ j.on.slots :=
      BoundCondition.mem_slots_of_mem_tags htag (List.mem_singleton.mpr rfl)
    have hle := h.slot_le slot hslot
    rw [List.getElem?_append_left (by omega)] at hschema
    exact h.tag_unknown slot name htag schema hschema
  slot_le := h.slot_le

namespace Binder

variable {b : Binder} {slots t : BoundSlots} {j : Join} {inner : Query → Except Failure BoundQuery}

/-! ## Conditions -/

/-- A tag that is left in a bound condition comes from a tag that has been resolved. -/
theorem exists_resolve_of_mem_tags {late : Option Condition} {on : BoundCondition}
    (h : b.bindOn slots j late = .ok on) {tag : TypeTag} (ht : tag ∈ on.tags) :
    ∃ origin, (b.context slots).resolve origin = tag := by
  obtain ⟨c, args, -, -, params, hparams, rfl⟩ := bindOn_eq_ok_iff.mp h
  rw [BoundCondition.tags, List.mem_append, Term.tags_mapTags] at ht
  rcases ht with ht | ht
  · obtain ⟨origin, -, ho⟩ := List.mem_map.mp ht
    exact ⟨origin, ho⟩
  · obtain ⟨r, hr, rfl⟩ := List.mem_map.mp ht
    obtain ⟨p, -, hp⟩ := exists_of_mem_mapM hparams hr
    exact ⟨p.tag, (bindParam_eq_ok_iff.mp hp).2⟩

theorem accepts_of_bindOn {late : Option Condition} {on : BoundCondition}
    (h : b.bindOn slots j late = .ok on) {v : Value} {type : ColumnType}
    (hv : (v, .type type) ∈ on.params) : type.accepts v = true := by
  obtain ⟨c, args, -, -, params, hparams, rfl⟩ := bindOn_eq_ok_iff.mp h
  obtain ⟨p, -, hp⟩ := exists_of_mem_mapM hparams hv
  obtain ⟨hvalue, htag⟩ := bindParam_eq_ok_iff.mp hp
  exact (paramValue_eq_ok_iff.mp hvalue).2 type htag

theorem slot_le_of_bindOn {late : Option Condition} {on : BoundCondition}
    (h : b.bindOn slots j late = .ok on) : ∀ s ∈ on.slots, s ≤ j.lastSlot := by
  obtain ⟨c, args, -, hlast, params, hparams, rfl⟩ := bindOn_eq_ok_iff.mp h
  intro s hs
  apply hlast
  rw [BoundCondition.slots, List.mem_append] at hs
  rw [Condition.slots, List.mem_append]
  rcases hs with hs | hs
  · exact .inl (Term.mem_slots_of_mapTags (fun _ _ => Context.mem_slots_of_resolve) _ hs)
  · obtain ⟨r, hr, hs⟩ := List.mem_flatMap.mp hs
    obtain ⟨p, hp, hbind⟩ := exists_of_mem_mapM hparams hr
    rw [← (bindParam_eq_ok_iff.mp hbind).2] at hs
    exact .inr (List.mem_flatMap.mpr ⟨p, hp, Context.mem_slots_of_resolve hs⟩)

/-! ## Sources -/

theorem accepts_of_bindSource {found : FoundSource} (h : b.bindSource inner slots j = .ok found)
    {columns : List (String × ColumnType)} {rowCount : Nat} {cells : List (Value × ColumnType)}
    (hs : found.source = .values columns rowCount cells) {v : Value} {type : ColumnType}
    (hv : (v, type) ∈ cells) : type.accepts v = true := by
  cases bindSource_eq_ok_iff.mp h with
  | values hj hlist hcells =>
    cases hs
    obtain ⟨cell, -, hcell⟩ := exists_of_mem_mapM hcells hv
    exact (bindCell_eq_ok_iff.mp hcell).2.2
  | _ => cases hs

theorem exists_inner_of_bindSource {found : FoundSource}
    (h : b.bindSource inner slots j = .ok found) {bound : BoundQuery} {tablePrefix : Option String}
    (hs : found.source = .subquery bound tablePrefix) : ∃ q, inner q = .ok bound := by
  cases bindSource_eq_ok_iff.mp h with
  | subquery hj hq hpre hbound =>
    cases hs
    exact ⟨_, hbound⟩
  | _ => cases hs

/-! ## Joins -/

theorem wellTyped_of_bindJoin {bound : BoundJoin} (h : b.bindJoin inner slots j = .ok (bound, t)) :
    bound.WellTyped b.compiler.view t.schemas := by
  obtain ⟨p, aliasName, halias, rfl⟩ := exists_parts_of_bindJoin h
  have hschemas : t.schemas = p.grown.schemas := schemas_of_bindAlias halias
  refine ⟨?_, ?_, ?_, ?_⟩
  · intro v type hv
    exact accepts_of_bindOn p.on_eq hv
  · intro columns rowCount cells hs v type hv
    exact accepts_of_bindSource p.found_eq hs hv
  · intro slot name htag schema hschema
    obtain ⟨origin, horigin⟩ := exists_resolve_of_mem_tags p.on_eq htag
    rw [hschemas] at hschema
    exact (Context.resolve_eq_field horigin).2 schema hschema
  · exact slot_le_of_bindOn p.on_eq

/-- All joins of a run are well typed with the schemas that the run ends with. -/
theorem wellTyped_of_bindJoins {js : List Join} {bounds : List BoundJoin}
    (hpos : 0 < slots.schemas.length) (h : b.bindJoins inner slots js = .ok (bounds, t)) :
    ∀ bound ∈ bounds, bound.WellTyped b.compiler.view t.schemas := by
  induction js generalizing slots bounds with
  | nil =>
    cases h
    intro bound hb
    cases hb
  | cons j rest ih =>
    obtain ⟨bound, u, hbound, more, hmore, rfl⟩ := bindJoins_cons_eq_ok_iff.mp h
    obtain ⟨hu, hlast⟩ := schemas_of_bindJoin hbound
    have hupos : 0 < u.schemas.length := by
      rw [hu, List.length_append]
      omega
    intro k hk
    rcases List.mem_cons.mp hk with rfl | hk
    · rw [schemas_of_bindJoins hmore]
      exact (wellTyped_of_bindJoin hbound).append (by omega) hupos _
    · exact ih hupos hmore k hk

theorem exists_inner_of_bindJoins {js : List Join} {bounds : List BoundJoin}
    (h : b.bindJoins inner slots js = .ok (bounds, t)) {k : BoundJoin} (hk : k ∈ bounds)
    {bound : BoundQuery} {tablePrefix : Option String}
    (hs : k.source = .subquery bound tablePrefix) :
    ∃ q, inner q = .ok bound := by
  induction js generalizing slots bounds with
  | nil =>
    cases h
    cases hk
  | cons j rest ih =>
    obtain ⟨first, u, hfirst, more, hmore, rfl⟩ := bindJoins_cons_eq_ok_iff.mp h
    rcases List.mem_cons.mp hk with rfl | hk
    · obtain ⟨p, aliasName, -, rfl⟩ := exists_parts_of_bindJoin hfirst
      exact exists_inner_of_bindSource p.found_eq hs
    · exact ih hmore hk

/-! ## Queries -/

theorem wellTyped_of_bindWithin {depth : Nat} {q : Query} {bound : BoundQuery}
    (h : b.bindWithin depth q = .ok bound) :
    ∀ inner : BoundQuery, inner.Within bound →
      ∀ j ∈ inner.joins, j.WellTyped b.compiler.view inner.slotSchemas := by
  -- The depth falls with every subquery, so the induction follows the nesting.
  induction depth generalizing q bound with
  | zero => cases h
  | succ depth ih =>
    obtain ⟨joins, t, hjoins, rfl⟩ := bindWithin_succ_eq_ok_iff.mp h
    have htyped := wellTyped_of_bindJoins (by exact Nat.lt_succ_self 0) hjoins
    intro inner hwithin
    cases hwithin with
    | refl =>
      have hschemas : BoundQuery.slotSchemas ⟨q.base, joins, t.aliases⟩ = t.schemas := by
        rw [schemas_of_bindJoins hjoins, BoundQuery.slotSchemas, BoundQuery.joinSchemas_eq_flatMap]
        rfl
      rw [hschemas]
      exact htyped
    | subquery hj hs hmid =>
      obtain ⟨q', hq'⟩ := exists_inner_of_bindJoins hjoins hj hs
      exact ih hq' inner hmid

end Binder

/-- Whatever is bound is well typed, in the query and in every subquery inside it. -/
theorem Query.bind_well_typed {q : Query} {args : Arguments} {c : Compiler} {bound : BoundQuery}
    (h : q.bind args c = .ok bound) :
    ∀ inner : BoundQuery, inner.Within bound →
      ∀ j ∈ inner.joins, j.WellTyped c.view inner.slotSchemas :=
  Binder.wellTyped_of_bindWithin h

namespace Sample

/-- Knows that a comment has an integer score. -/
def binder : Compiler where
  view := fun name =>
    if name = "Comment" then
      some { name := "Comment", source := "comments", fields := .ofList [("score", .integer)] }
    else none

def scoreAbove (n : Int64) : Arguments := .positional [.value (.integer n)]

def boundComments (slot : Nat) (n : Int64) : BoundJoin where
  qualifier := .left
  source := .table { schema := some "Comment" }
  on := ⟨.binary .and (.eq (.field slot "post_id") (.field 0 "id"))
    (.binary .gt (.field slot "score") (.param 0)), [(.integer n, .type .integer)]⟩
  aliasName := none
  tablePrefix := none
  hints := []
  extensions := .empty
  slot := slot
  arity := 1

theorem bind_comments (n : Int64) :
    postsWithComments.bind (scoreAbove n) binder = .ok ⟨posts.base, [boundComments 1 n], .empty⟩ :=
  rfl

/-- The score is checked against the type that only binding knows. -/
theorem bind_well_typed_comments :
    postsWithComments.bind (scoreAbove 3) binder = .ok ⟨posts.base, [boundComments 1 3], .empty⟩ ∧
      (boundComments 1 3).WellTyped binder.view [none, some "Comment"] :=
  ⟨bind_comments 3,
    Query.bind_well_typed (bind_comments 3) _ .refl _ (List.mem_singleton.mpr rfl)⟩

end Sample

end StagedJoin
