import StagedJoin.Proofs.Bound.Appended
import StagedJoin.Proofs.Bound.Layout
import StagedJoin.Proofs.Bound.Meaning
import StagedJoin.Proofs.Bound.Naming
import StagedJoin.Proofs.Condition.Conjunction

/-!
Binding on its way through the joins. It arrives at the parameters of a clause once the
joins before are bound, the source is found and the condition is at hand; a parameter
that fails there fails the whole query, and a query that is bound has arrived at every
clause and bound all of its parameters.
-/
namespace StagedJoin

/-! ## Conditions behind others -/

theorem Binder.mem_params_conjoin {param : Param} {c : Condition} (first : Option Condition)
    (h : param ∈ c.params) : param ∈ (conjoin first c).params := by
  cases first with
  | none => exact h
  | some natural => exact c.mem_params_and natural h

namespace Binder

/-! ## Arriving at a clause -/

/-- The joins before one of them, the join and the joins behind. -/
theorem eq_take_append_drop {js : List Join} {k : Nat} {j : Join} (h : js[k]? = some j) :
    js = js.take k ++ j :: js.drop (k + 1) := by
  obtain ⟨hk, rfl⟩ := List.getElem?_eq_some_iff.mp h
  rw [← List.drop_eq_getElem_cons hk, List.take_append_drop]

/-- The queries inside a query are bound with less depth than the query. -/
def inside (b : Binder) (q : Query) : Query → Except Failure BoundQuery :=
  b.bindWithin (Join.totalArity q.joins)

/-- Binding has come to the parameters of the clause of the join at a place. -/
structure Arrival (b : Binder) (q : Query) (k : Nat) where
  join : Join
  before : List BoundJoin
  /-- The slots behind the joins before. -/
  slots : BoundSlots
  found : FoundSource
  given : Condition
  /-- The arguments that the parameters refer to. -/
  args : Arguments
  join_eq : q.joins[k]? = some join
  before_eq : b.bindJoins (b.inside q) ⟨q.aliases, [q.base.source.schema]⟩ (q.joins.take k) =
    .ok (before, slots)
  slot_eq : join.slot = slots.schemas.length
  found_eq : b.bindSource (b.inside q) slots join = .ok found
  given_eq : b.onCondition
    ⟨slots.aliases, slots.schemas ++ found.source.slotSchemas join.arity⟩ join = .ok (given, args)
  last_le : ∀ s ∈ (conjoin found.lateCondition given).slots, s ≤ join.lastSlot

namespace Arrival

variable {b : Binder} {q : Query} {k : Nat} {f : Failure}

/-- The slots up to and including those of the join. -/
def grown (a : b.Arrival q k) : BoundSlots :=
  ⟨a.slots.aliases, a.slots.schemas ++ a.found.source.slotSchemas a.join.arity⟩

/-- What the types of the parameters are resolved with. -/
def context (a : b.Arrival q k) : Context := b.context a.grown

/-- The condition of the clause, behind that of an association found only now. -/
def condition (a : b.Arrival q k) : Condition := conjoin a.found.lateCondition a.given

theorem length_schemas (a : b.Arrival q k) :
    a.context.schemas.length = a.join.slot + a.join.arity := by
  change (a.slots.schemas ++ _).length = _
  rw [List.length_append, BoundSource.length_slotSchemas, a.slot_eq]

/-! ## Failing there -/

theorem bindJoin_eq_error (a : b.Arrival q k)
    (h : a.condition.params.mapM (bindParam a.context a.args) = .error f) :
    b.bindJoin (b.inside q) a.slots a.join = .error f := by
  have hlast : checkLastSlot a.condition.maxSlot? a.join.lastSlot = .ok () :=
    checkLastSlot_eq_ok_iff.mpr ((a.condition.forall_mem_maxSlot? _).mpr a.last_le)
  have hon : b.bindOn a.grown a.join a.found.lateCondition = .error f := by
    refine bind_eq_error.mpr (.inr ⟨(a.given, a.args), a.given_eq, ?_⟩)
    refine bind_eq_error.mpr (.inr ⟨(), hlast, ?_⟩)
    exact bind_eq_error.mpr (.inl h)
  have hslot : ¬ a.join.slot ≠ a.slots.schemas.length := fun hne => hne a.slot_eq
  unfold bindJoin
  simp only [hslot, ↓reduceIte]
  refine bind_eq_error.mpr (.inr ⟨a.found, a.found_eq, ?_⟩)
  exact bind_eq_error.mpr (.inl hon)

/-- The query fails as the parameters of the clause do. -/
theorem bind_eq_error (a : b.Arrival q k)
    (h : a.condition.params.mapM (bindParam a.context a.args) = .error f) :
    b.bind q = .error f := by
  have hrun : b.bindJoins (b.inside q) ⟨q.aliases, [q.base.source.schema]⟩ q.joins =
      .error f := by
    rw [eq_take_append_drop a.join_eq, bindJoins_append_of_ok a.before_eq, bindJoins,
      a.bindJoin_eq_error h]
    rfl
  rw [bind_eq]
  change (b.bindJoins (b.inside q) _ q.joins).map _ = _
  rw [hrun]
  rfl

/-- Behind parameters that are bound, the failure of one is that of the query. -/
theorem bind_eq_error_of_param (a : b.Arrival q k) {before after : List Param} {param : Param}
    {bound : List (Value × TypeTag)} (hparams : a.condition.params = before ++ param :: after)
    (hbefore : before.mapM (bindParam a.context a.args) = .ok bound)
    (h : bindParam a.context a.args param = .error f) : b.bind q = .error f := by
  apply a.bind_eq_error
  rw [hparams, List.mapM_append, hbefore, ok_bind, List.mapM_cons, h]
  rfl

/-- A parameter that fails fails the query, with this failure or with one from before. -/
theorem exists_bind_eq_error (a : b.Arrival q k) {param : Param}
    (hparam : param ∈ a.condition.params) (h : bindParam a.context a.args param = .error f) :
    ∃ f', b.bind q = .error f' := by
  cases hrun : a.condition.params.mapM (bindParam a.context a.args) with
  | error f' => exact ⟨f', a.bind_eq_error hrun⟩
  | ok bound =>
    obtain ⟨i, hi⟩ := List.getElem?_of_mem hparam
    obtain ⟨hlt, rfl⟩ := List.getElem?_eq_some_iff.mp hi
    have hbound := mapM_eq_ok_iff.mp hrun
    have hok := hbound.get hlt (hbound.length_eq ▸ hlt)
    cases hok.symm.trans h

end Arrival

/-! ## Having passed there -/

variable {b : Binder} {q : Query} {k : Nat} {bq : BoundQuery}

theorem bindJoins_append_eq_ok {inner : Query → Except Failure BoundQuery}
    {slots slots' : BoundSlots} {js ks : List Join} {bounds : List BoundJoin}
    (h : b.bindJoins inner slots (js ++ ks) = .ok (bounds, slots')) :
    ∃ before mid behind, b.bindJoins inner slots js = .ok (before, mid) ∧
      b.bindJoins inner mid ks = .ok (behind, slots') ∧ before ++ behind = bounds := by
  cases hjs : b.bindJoins inner slots js with
  | error f =>
    rw [bindJoins_append_of_error hjs] at h
    cases h
  | ok r =>
    obtain ⟨before, mid⟩ := r
    rw [bindJoins_append_of_ok hjs] at h
    obtain ⟨⟨behind, t⟩, hbehind, he⟩ := map_eq_ok.mp h
    cases he
    exact ⟨before, mid, behind, rfl, hbehind, rfl⟩

/-- What binding leaves behind at a clause that it has passed. -/
structure Arrival.Passed (a : b.Arrival q k) (bound : BoundJoin) (bq : BoundQuery) : Prop where
  join_eq : bq.joins[k]? = some bound
  slot_eq : bound.slot = a.join.slot
  arity_eq : bound.arity = a.join.arity
  params_eq : a.condition.params.mapM (bindParam a.context a.args) = .ok bound.on.params
  schemas_eq : a.context.schemas <+: bq.slotSchemas
  aliases_extend : bq.aliases.Extends a.slots.aliases

/-- A query that is bound has passed every clause. -/
theorem exists_passed_of_bind {j : Join} (h : b.bind q = .ok bq) (hj : q.joins[k]? = some j) :
    ∃ (a : b.Arrival q k) (bound : BoundJoin), a.Passed bound bq := by
  obtain ⟨bounds, t, hrun, rfl⟩ := bind_eq_ok_iff.mp h
  have hrun' : b.bindJoins (b.inside q) ⟨q.aliases, [q.base.source.schema]⟩ q.joins =
      .ok (bounds, t) := hrun
  rw [eq_take_append_drop hj] at hrun'
  obtain ⟨before, mid, behind, hbefore, hbehind, rfl⟩ := bindJoins_append_eq_ok hrun'
  obtain ⟨bound, after, hbound, more, hmore, rfl⟩ := bindJoins_cons_eq_ok_iff.mp hbehind
  obtain ⟨parts, aliasName, halias, rfl⟩ := exists_parts_of_bindJoin hbound
  obtain ⟨given, args, hgiven, hlast, params, hparams, hon⟩ := bindOn_eq_ok_iff.mp parts.on_eq
  let a : b.Arrival q k := ⟨j, before, mid, parts.found, given, args, hj, hbefore,
    parts.slot_eq, parts.found_eq, hgiven, hlast⟩
  have hlength : before.length = k := by
    have hk : k < q.joins.length := (List.getElem?_eq_some_iff.mp hj).1
    rw [length_of_bindJoins hbefore, List.length_take, Nat.min_eq_left (Nat.le_of_lt hk)]
  have hafter : after.schemas = a.context.schemas := schemas_of_bindAlias halias
  have hschemas : t.schemas = after.schemas ++ more.flatMap BoundJoin.slotSchemas :=
    schemas_of_bindJoins hmore
  refine ⟨a, parts.join aliasName, ⟨?_, rfl, rfl, ?_, ?_, ?_⟩⟩
  · rw [List.getElem?_append_right (Nat.le_of_eq hlength), hlength, Nat.sub_self]
    rfl
  · change _ = Except.ok parts.on.params
    rw [← hon]
    exact hparams
  · have hshown : t.schemas = BoundQuery.slotSchemas ⟨q.base, before ++ _, t.aliases⟩ :=
      schemas_of_bindJoins_base hrun
    rw [← hshown, hschemas, hafter]
    exact List.prefix_append _ _
  · have hbehind' : t.aliases.Extends mid.aliases := extends_of_bindJoins hbehind
    exact hbehind'

/-! ## What is known there -/

/-- A schema that was known before binding is the one that binding sees at the clause. -/
theorem Arrival.schema?_of_known (a : b.Arrival q k) (hq : q.Reachable) {slot : Nat}
    {schema : String} (hlt : slot < a.join.slot + a.join.arity)
    (hknown : q.slotSchemas[slot]? = some (some schema)) :
    a.context.schema? slot = some schema := by
  have hmem : ∀ j ∈ q.joins.take k, j ∈ q.joins := fun j => List.mem_of_mem_take
  have hinner : ∀ j ∈ q.joins, ∀ sub p, j.source = .subquery (.literal sub) p →
      ∀ bound, b.inside q sub = .ok bound → SchemasRefine sub.slotSchemas bound.slotSchemas :=
    fun j hj sub p hs bound hbound =>
      (follows_of_bindWithin (hq.subquery j hj sub p hs) hbound).slotSchemas
  have hjoin : a.join ∈ q.joins := List.mem_of_getElem? a.join_eq
  have hbefore : SchemasRefine ((q.joins.take k).flatMap Join.schemas)
      (a.before.flatMap BoundJoin.slotSchemas) :=
    BoundJoin.slotSchemas_of_follows (follows_of_bindJoins
      (fun j hj => hq.schemas_eq j (hmem j hj)) (fun j hj => hinner j (hmem j hj)) a.before_eq)
  have hown : SchemasRefine a.join.schemas (a.found.source.slotSchemas a.join.arity) := by
    rw [hq.schemas_eq a.join hjoin]
    exact slotSchemas_of_bindSource (hinner a.join hjoin) a.found_eq
  have hrefine : SchemasRefine
      ((q.base.source.schema :: (q.joins.take k).flatMap Join.schemas) ++ a.join.schemas)
      a.context.schemas := by
    change SchemasRefine _ (a.slots.schemas ++ _)
    rw [schemas_of_bindJoins a.before_eq]
    exact ((SchemasRefine.refl [q.base.source.schema]).append hbefore).append hown
  have hschemas : q.slotSchemas =
      ((q.base.source.schema :: (q.joins.take k).flatMap Join.schemas) ++ a.join.schemas) ++
        (q.joins.drop (k + 1)).flatMap Join.schemas := by
    rw [Query.slotSchemas]
    conv_lhs => rw [eq_take_append_drop a.join_eq]
    simp [List.flatMap_append]
  rw [hschemas, List.getElem?_append_left] at hknown
  · exact hrefine.join_getElem? (Option.join_eq_some_iff.mpr hknown)
  · rwa [hrefine.length_eq, a.length_schemas]

end Binder

end StagedJoin
