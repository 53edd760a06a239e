import StagedJoin.Proofs.Bound.Natural
import StagedJoin.Proofs.Bound.Termination
import StagedJoin.Proofs.Bound.Typing

/-!
The slot layout of a bound query. Binding keeps the qualifier and the slots of every
join, and where the schema of a slot is known before binding it is the schema that is
bound; it only adds schemas that were not known. The query of a subquery fills the
slots of its join, at every depth.
-/
namespace StagedJoin

/-! ## Known schemas -/

/-- As many slots, and the same schema wherever one was known. -/
def SchemasRefine (known schemas : List (Option String)) : Prop :=
  List.Forall₂ (fun k s => ∀ name, k = some name → s = some name) known schemas

namespace SchemasRefine

variable {known known' schemas schemas' : List (Option String)}

theorem refl (schemas : List (Option String)) : SchemasRefine schemas schemas :=
  List.forall₂_same.mpr fun _ _ _ h => h

theorem of_none (schemas : List (Option String)) :
    SchemasRefine (List.replicate schemas.length none) schemas := by
  induction schemas with
  | nil => exact .nil
  | cons s rest ih => exact .cons (fun _ h => nomatch h) ih

theorem trans {more : List (Option String)} (h : SchemasRefine known schemas)
    (h' : SchemasRefine schemas more) : SchemasRefine known more := by
  refine List.forall₂_iff_get.mpr ⟨h.length_eq.trans h'.length_eq, fun k hk hmore name hname => ?_⟩
  have hs : k < schemas.length := h.length_eq ▸ hk
  exact (List.forall₂_iff_get.mp h').2 k hs hmore name
    ((List.forall₂_iff_get.mp h).2 k hk hs name hname)

theorem append (h : SchemasRefine known schemas) (h' : SchemasRefine known' schemas') :
    SchemasRefine (known ++ known') (schemas ++ schemas') := List.rel_append h h'

theorem resize (h : SchemasRefine known schemas) (arity : Nat) :
    SchemasRefine (resizeSchemas arity known) (resizeSchemas arity schemas) := by
  unfold resizeSchemas
  rw [List.Forall₂.length_eq h]
  exact append (List.forall₂_take arity h) (.refl _)

/-- Where nothing is known, it may be anything. -/
theorem of_resize_nil {arity : Nat} (h : schemas.length = arity) :
    SchemasRefine (resizeSchemas arity []) schemas := by
  simp only [resizeSchemas, List.take_nil, List.nil_append, List.length_nil, Nat.sub_zero]
  rw [← h]
  exact of_none schemas

/-- A schema that is known is found again. -/
theorem getElem? (h : SchemasRefine known schemas) {slot : Nat} {name : String}
    (hslot : known[slot]? = some (some name)) : schemas[slot]? = some (some name) := by
  obtain ⟨hlength, hget⟩ := List.forall₂_iff_get.mp h
  obtain ⟨hk, hname⟩ := List.getElem?_eq_some_iff.mp hslot
  have hs : slot < schemas.length := hlength ▸ hk
  rw [List.getElem?_eq_getElem hs]
  exact congrArg some (hget slot hk hs name hname)

theorem join_getElem? (h : SchemasRefine known schemas) {slot : Nat} {name : String}
    (hslot : known[slot]?.join = some name) : schemas[slot]?.join = some name := by
  rw [h.getElem? (Option.join_eq_some_iff.mp hslot)]
  rfl

end SchemasRefine

/-- The schemas of a join are those of its source. -/
theorem Query.Reachable.schemas_eq {q : Query} (hq : q.Reachable) :
    ∀ j ∈ q.joins, j.schemas = j.source.slotSchemas j.arity := by
  intro j hj
  obtain ⟨c, p, i, offset, -, built, hbuilt, hmove⟩ := hq.comesFrom j hj
  obtain ⟨parts, rfl⟩ := Compiler.build_eq_ok_iff.mp hbuilt
  have hschemas : j.schemas = parts.sized.source.slotSchemas parts.arity := by
    rcases hmove with rfl | ⟨-, rfl⟩ <;> rfl
  have hshift : j.source.slotSchemas j.arity = parts.sized.source.slotSchemas parts.arity := by
    rw [hmove.source_eq, hmove.arity_eq]
    change (parts.sized.source.shift offset).slotSchemas parts.arity = _
    cases parts.sized.source <;> rfl
  rw [hschemas, hshift]

/-! ## Joins -/

/-- The bound join has the qualifier and the slots of the join, with every schema that was
known. -/
structure BoundJoin.Follows (j : Join) (bound : BoundJoin) : Prop where
  qualifier_eq : bound.qualifier = j.qualifier
  slot_eq : bound.slot = j.slot
  arity_eq : bound.arity = j.arity
  schemas : SchemasRefine j.schemas bound.slotSchemas

theorem BoundJoin.totalArity_of_follows {js : List Join} {bounds : List BoundJoin}
    (h : List.Forall₂ Follows js bounds) : totalArity bounds = Join.totalArity js := by
  induction h with
  | nil => rfl
  | cons hj _ ih => rw [totalArity, Join.totalArity, ih, hj.arity_eq]

theorem BoundJoin.slotSchemas_of_follows {js : List Join} {bounds : List BoundJoin}
    (h : List.Forall₂ Follows js bounds) :
    SchemasRefine (js.flatMap Join.schemas) (bounds.flatMap slotSchemas) := by
  induction h with
  | nil => exact .nil
  | cons hj _ ih =>
    rw [List.flatMap_cons, List.flatMap_cons]
    exact hj.schemas.append ih

namespace Binder

variable {b : Binder} {inner : Query → Except Failure BoundQuery} {slots slots' : BoundSlots}
  {j : Join}

/-- What is known of a source before it is bound is what it is bound to. -/
theorem slotSchemas_of_bindSource
    (hinner : ∀ q p, j.source = .subquery (.literal q) p → ∀ bound, inner q = .ok bound →
      SchemasRefine q.slotSchemas bound.slotSchemas)
    {found : FoundSource} (h : b.bindSource inner slots j = .ok found) :
    SchemasRefine (j.source.slotSchemas j.arity) (found.source.slotSchemas j.arity) := by
  cases bindSource_eq_ok_iff.mp h with
  | table hj =>
    rw [hj]
    exact .refl _
  | runtime hj harg href =>
    rw [hj]
    exact .of_resize_nil (BoundSource.length_slotSchemas _ _)
  | @subquery query tablePrefix q _ bound hj hq hpre hbound =>
    rw [hj]
    cases query with
    | literal given =>
      cases hq
      exact (hinner q tablePrefix hj bound hbound).resize j.arity
    | deferred p => exact .of_resize_nil (BoundSource.length_slotSchemas _ _)
  | association hj ha =>
    simp only [hj, JoinSource.slotSchemas, ha]
    exact .refl _
  | @late a name r hj ha hname hr =>
    simp only [hj, JoinSource.slotSchemas, ha, Option.map_none]
    exact (SchemasRefine.of_none [some r.related]).resize j.arity
  | values hj hlist hcells =>
    rw [hj]
    exact .of_resize_nil (BoundSource.length_slotSchemas _ _)

theorem follows_of_bindJoin (hschemas : j.schemas = j.source.slotSchemas j.arity)
    (hinner : ∀ q p, j.source = .subquery (.literal q) p → ∀ bound, inner q = .ok bound →
      SchemasRefine q.slotSchemas bound.slotSchemas)
    {bound : BoundJoin} (h : b.bindJoin inner slots j = .ok (bound, slots')) : bound.Follows j := by
  obtain ⟨p, aliasName, -, rfl⟩ := exists_parts_of_bindJoin h
  refine ⟨rfl, rfl, rfl, ?_⟩
  rw [hschemas]
  exact slotSchemas_of_bindSource hinner p.found_eq

theorem follows_of_bindJoins {js : List Join}
    (hschemas : ∀ j ∈ js, j.schemas = j.source.slotSchemas j.arity)
    (hinner : ∀ j ∈ js, ∀ q p, j.source = .subquery (.literal q) p → ∀ bound, inner q = .ok bound →
      SchemasRefine q.slotSchemas bound.slotSchemas)
    {bounds : List BoundJoin} (h : b.bindJoins inner slots js = .ok (bounds, slots')) :
    List.Forall₂ BoundJoin.Follows js bounds := by
  induction js generalizing slots bounds with
  | nil =>
    cases h
    exact .nil
  | cons j rest ih =>
    obtain ⟨bound, t, hbound, more, hmore, rfl⟩ := bindJoins_cons_eq_ok_iff.mp h
    refine .cons ?_ ?_
    · exact follows_of_bindJoin (hschemas j List.mem_cons_self) (hinner j List.mem_cons_self) hbound
    · exact ih (fun k hk => hschemas k (List.mem_cons_of_mem _ hk))
        (fun k hk => hinner k (List.mem_cons_of_mem _ hk)) hmore

end Binder

/-! ## Queries -/

/-- The bound query has the joins of the query, slot by slot. -/
structure BoundQuery.Follows (q : Query) (bound : BoundQuery) : Prop where
  base_eq : bound.base = q.base
  joins : List.Forall₂ BoundJoin.Follows q.joins bound.joins

namespace BoundQuery.Follows

variable {q : Query} {bound : BoundQuery}

theorem slotCount_eq (h : bound.Follows q) : bound.slotCount = q.slotCount := by
  rw [slotCount, Query.slotCount, BoundJoin.totalArity_of_follows h.joins]

theorem slotSchemas (h : bound.Follows q) : SchemasRefine q.slotSchemas bound.slotSchemas := by
  rw [bound.slotSchemas_eq, h.base_eq]
  exact (SchemasRefine.refl [q.base.source.schema]).append
    (BoundJoin.slotSchemas_of_follows h.joins)

end BoundQuery.Follows

namespace Binder

variable {b : Binder} {depth : Nat} {q : Query} {bound : BoundQuery}

theorem follows_of_bindWithin (hq : q.Reachable) (h : b.bindWithin depth q = .ok bound) :
    bound.Follows q := by
  -- Only the subqueries that are given have schemas before they are bound.
  induction depth generalizing q bound with
  | zero => cases h
  | succ depth ih =>
    obtain ⟨joins, t, hjoins, rfl⟩ := bindWithin_succ_eq_ok_iff.mp h
    refine ⟨rfl, follows_of_bindJoins hq.schemas_eq ?_ hjoins⟩
    intro j hj sub p hs subBound hsub
    exact (ih (hq.subquery j hj sub p hs) hsub).slotSchemas

theorem exists_query_of_bindSource {inner : Query → Except Failure BoundQuery} {slots : BoundSlots}
    {j : Join} {found : FoundSource} (h : b.bindSource inner slots j = .ok found)
    {sub : BoundQuery} {p : Option String} (hs : found.source = .subquery sub p) :
    ∃ query tablePrefix origin, j.source = .subquery query tablePrefix ∧
      b.subqueryOf j.arity query = .ok origin ∧ inner origin = .ok sub := by
  cases bindSource_eq_ok_iff.mp h with
  | subquery hj hquery hpre hbound =>
    cases hs
    exact ⟨_, _, _, hj, hquery, hbound⟩
  | _ => cases hs

/-- The query of a bound subquery has come from a query with the slots of its join, which is built
as the query around it is. -/
theorem exists_origin_of_bindJoins {P : Invocation → Prop} (hargs : b.arguments.BuiltWith P)
    (hq : q.BuiltWith P) {slots t : BoundSlots} {bounds : List BoundJoin}
    (h : b.bindJoins (b.bindWithin depth) slots q.joins = .ok (bounds, t)) {j : BoundJoin}
    (hj : j ∈ bounds) {sub : BoundQuery} {p : Option String} (hs : j.source = .subquery sub p) :
    ∃ origin : Query, origin.BuiltWith P ∧ origin.slotCount = j.arity ∧
      b.bindWithin depth origin = .ok sub := by
  obtain ⟨k, hk⟩ := List.getElem?_of_mem hj
  obtain ⟨i, before, after, hi, hbind, -⟩ := exists_step_of_bindJoins h hk
  obtain ⟨parts, aliasName, -, rfl⟩ := exists_parts_of_bindJoin hbind
  obtain ⟨query, tablePrefix, origin, hsource, horigin, hsub⟩ :=
    exists_query_of_bindSource parts.found_eq hs
  obtain ⟨hbuilt, hcount⟩ :=
    subqueryOf_builtWith hargs hq (List.mem_of_getElem? hi) hsource horigin
  exact ⟨origin, hbuilt, hcount, hsub⟩

/-- At every depth, the query of a subquery fills the slots of its join. -/
theorem slotCount_of_within (hargs : b.arguments.Reachable) (hq : q.Reachable)
    (h : b.bindWithin depth q = .ok bound) {outer : BoundQuery} (hwithin : outer.Within bound) :
    ∀ j ∈ outer.joins, ∀ sub p, j.source = .subquery sub p → sub.slotCount = j.arity := by
  induction depth generalizing q bound with
  | zero => cases h
  | succ depth ih =>
    obtain ⟨joins, t, hjoins, rfl⟩ := bindWithin_succ_eq_ok_iff.mp h
    cases hwithin with
    | refl =>
      intro j hj sub p hs
      obtain ⟨origin, horigin, hcount, hbind⟩ :=
        exists_origin_of_bindJoins hargs.builtWith hq.builtWith hjoins hj hs
      rw [(follows_of_bindWithin horigin.reachable hbind).slotCount_eq, hcount]
    | subquery hj hs hmid =>
      obtain ⟨origin, horigin, -, hbind⟩ :=
        exists_origin_of_bindJoins hargs.builtWith hq.builtWith hjoins hj hs
      exact ih horigin.reachable hbind hmid

end Binder

/-- Whatever binding adds, it keeps the slot layout: every bound join has the qualifier and the
slots of its join, every schema that was known before stays in its slot, and every bound subquery,
at any depth, fills the slots of the join that holds it. -/
theorem Query.Reachable.bind_keeps_layout {q : Query} {args : Arguments} {c : Compiler}
    {bound : BoundQuery} (hq : q.Reachable) (hargs : args.Reachable)
    (h : q.bind args c = .ok bound) :
    List.Forall₂ (fun (j : Join) (bj : BoundJoin) =>
      bj.qualifier = j.qualifier ∧ bj.slot = j.slot ∧ bj.arity = j.arity) q.joins bound.joins ∧
    bound.slotCount = q.slotCount ∧
    bound.slotSchemas.length = q.slotCount ∧
    (∀ (slot : Nat) (schema : String), q.slotSchemas[slot]? = some (some schema) →
      bound.slotSchemas[slot]? = some (some schema)) ∧
    ∀ outer : BoundQuery, outer.Within bound → ∀ j ∈ outer.joins, ∀ sub tablePrefix,
      j.source = .subquery sub tablePrefix → sub.slotCount = j.arity := by
  have hfollows : bound.Follows q := Binder.follows_of_bindWithin hq h
  have hschemas := hfollows.slotSchemas
  refine ⟨?_, hfollows.slotCount_eq, ?_, fun _ _ h => hschemas.getElem? h, ?_⟩
  · exact hfollows.joins.imp fun j bj hj => ⟨hj.qualifier_eq, hj.slot_eq, hj.arity_eq⟩
  · rw [← hschemas.length_eq, hq.layout.length_slotSchemas]
  · intro outer hwithin
    let b : Binder := ⟨c, args⟩
    have hb : b.arguments.Reachable := hargs
    exact Binder.slotCount_of_within hb hq h hwithin

namespace Sample

/-- A score for `^0` and, for `^1`, posts with the comments above that score. -/
def commentsInside : Arguments :=
  .positional [.value (.integer 3), .queryable (.query postsWithComments)]

def boundInside : BoundJoin where
  qualifier := .inner
  source := .subquery ⟨posts.base, [boundComments 1 3], .empty⟩ none
  on := ⟨.truth, []⟩
  aliasName := none
  tablePrefix := none
  hints := []
  extensions := .empty
  slot := 1
  arity := 2

theorem reachable_commentsInside : commentsInside.Reachable := by
  intro p q h
  rcases p with (_ | _ | index) | name
  · cases h
  · cases h
    exact reachable_postsWithComments
  · cases h
  · cases h

/-- The comments inside show their schema in the last slot, of which nothing was known. -/
theorem bind_keeps_layout_commentsInside :
    aroundSnake.Reachable ∧ commentsInside.Reachable ∧
      aroundSnake.bind commentsInside binder = .ok ⟨posts.base, [boundInside], .empty⟩ ∧
      boundInside.slotSchemas = [none, some "Comment"] ∧
      BoundQuery.slotCount ⟨posts.base, [boundInside], .empty⟩ = aroundSnake.slotCount ∧
      BoundQuery.slotCount ⟨posts.base, [boundComments 1 3], .empty⟩ = 2 := by
  have hbind : aroundSnake.bind commentsInside binder =
      .ok ⟨posts.base, [boundInside], .empty⟩ := rfl
  obtain ⟨-, hcount, -, -, hinside⟩ :=
    reachable_aroundSnake.bind_keeps_layout reachable_commentsInside hbind
  exact ⟨reachable_aroundSnake, reachable_commentsInside, hbind, rfl, hcount,
    hinside _ .refl boundInside (List.mem_singleton.mpr rfl) _ none rfl⟩

end Sample

end StagedJoin
