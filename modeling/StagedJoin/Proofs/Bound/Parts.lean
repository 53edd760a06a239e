import StagedJoin.Bound.Binding
import StagedJoin.Proofs.Query.Layout

/-!
What a successful binding has found. A join is bound exactly when it stands at the
next slot and each of its parts is bound, and a list of joins when each join is
bound behind the ones before it. More depth never changes a query that is bound.
-/
namespace StagedJoin

/-- The name that an argument gives to a join. -/
def Argument.name? : Argument → Option String
  | .value (.atom name) => some name
  | .value (.string name) => some name
  | _ => none

theorem Arguments.require_eq_ok_iff {args : Arguments} {p : Placeholder} {arg : Argument} :
    args.require p = .ok arg ↔ args.get? p = some arg := by
  unfold require
  cases args.get? p <;> simp

theorem BoundQuery.slotSchemas_eq (bound : BoundQuery) :
    bound.slotSchemas = bound.base.source.schema :: bound.joins.flatMap BoundJoin.slotSchemas := by
  obtain ⟨base, joins, aliases⟩ := bound
  rw [BoundQuery.slotSchemas, BoundQuery.joinSchemas_eq_flatMap]

namespace Binder

variable {b : Binder} {slots slots' : BoundSlots} {j : Join} {late : Option Condition}
  {inner : Query → Except Failure BoundQuery}

/-! ## Parameters and cells -/

theorem plainValue_eq_ok_iff {args : Arguments} {tag : TypeTag} {value : Staged Value} {v : Value} :
    plainValue args tag value = .ok v ↔
      value = .literal v ∨ ∃ p, value = .deferred p ∧ args.get? p = some (.value v) := by
  cases value with
  | literal w => simp [plainValue]
  | deferred p =>
    simp only [plainValue, Arguments.require]
    rcases h : args.get? p with _ | (_ | _ | _) <;> simp [h]

/-- A tag that is a type takes the value; any other tag takes every value. -/
theorem checkType_eq_ok_iff {ctx : Context} {tag : TypeTag} {v : Value} {u : Unit} :
    checkType ctx tag v = .ok u ↔ ∀ t, ctx.resolve tag = .type t → t.accepts v := by
  unfold checkType
  cases ctx.resolve tag with
  | any => simp
  | type t => by_cases h : t.accepts v <;> simp [h]
  | field slot name => simp

theorem paramValue_eq_ok_iff {ctx : Context} {args : Arguments} {tag : TypeTag}
    {value : Staged Value} {v : Value} :
    paramValue ctx args tag value = .ok v ↔
      plainValue args tag value = .ok v ∧ ∀ t, ctx.resolve tag = .type t → t.accepts v := by
  simp only [paramValue, bind_eq_ok, pure_eq_ok, checkType_eq_ok_iff]
  constructor
  · rintro ⟨w, hw, -, hc, rfl⟩
    exact ⟨hw, hc⟩
  · rintro ⟨hv, hc⟩
    exact ⟨v, hv, (), hc, rfl⟩

theorem bindParam_eq_ok_iff {ctx : Context} {args : Arguments} {p : Param}
    {r : Value × TypeTag} :
    bindParam ctx args p = .ok r ↔
      paramValue ctx args p.tag p.value = .ok r.1 ∧ ctx.resolve p.tag = r.2 := by
  simp only [bindParam, bind_eq_ok, pure_eq_ok]
  constructor
  · rintro ⟨v, hv, rfl⟩
    exact ⟨hv, rfl⟩
  · rintro ⟨hv, ht⟩
    exact ⟨r.1, hv, Prod.ext rfl ht⟩

/-- A cell is bound by its type alone, whatever the schemas are. -/
theorem bindCell_eq_ok_iff {ctx : Context} {cell : Param} {r : Value × ColumnType} :
    b.bindCell ctx cell = .ok r ↔ cell.tag = .type r.2 ∧
      plainValue b.arguments cell.tag cell.value = .ok r.1 ∧ r.2.accepts r.1 := by
  obtain ⟨value, tag⟩ := cell
  cases tag with
  | type t =>
    simp only [bindCell, bind_eq_ok, pure_eq_ok, paramValue_eq_ok_iff, Context.resolve,
      TypeTag.type.injEq, forall_eq']
    constructor
    · rintro ⟨v, ⟨hv, hc⟩, rfl⟩
      exact ⟨rfl, hv, hc⟩
    · rintro ⟨rfl, hv, hc⟩
      exact ⟨r.1, ⟨hv, hc⟩, rfl⟩
  | any => simp [bindCell, bind_eq_ok]
  | field slot name => simp [bindCell, bind_eq_ok]

/-! ## Sources -/

/-- The ways in which the source of a join is bound. -/
inductive SourceBinds (b : Binder) (inner : Query → Except Failure BoundQuery)
    (slots : BoundSlots) (j : Join) : FoundSource → Prop
  | table {ref : TableRef} (hj : j.source = .table ref) :
      SourceBinds b inner slots j { source := .table ref }
  | runtime {p : Placeholder} {arg : Argument} {ref : TableRef} (hj : j.source = .runtime p)
      (harg : b.arguments.require p = .ok arg) (href : runtimeTable arg = .ok ref) :
      SourceBinds b inner slots j { source := .table ref }
  | subquery {query : Staged Query} {tablePrefix : Option (Staged String)} {q : Query}
      {boundPrefix : Option String} {bound : BoundQuery}
      (hj : j.source = .subquery query tablePrefix) (hq : b.subqueryOf j.arity query = .ok q)
      (hpre : b.bindPrefix tablePrefix = .ok boundPrefix) (hbound : inner q = .ok bound) :
      SourceBinds b inner slots j { source := .subquery bound boundPrefix }
  | association {a : AssociationSource} {r : ResolvedAssociation}
      (hj : j.source = .association a) (ha : a.resolved = some r) :
      SourceBinds b inner slots j { source := .association a.owner r }
  | late {a : AssociationSource} {name : String} {r : ResolvedAssociation}
      (hj : j.source = .association a) (ha : a.resolved = none)
      (hname : b.associationName a.field = .ok name)
      (hr : b.findAssociation slots a.owner name = .ok r) :
      SourceBinds b inner slots j ⟨.association a.owner r, some (r.condition j.slot a.owner)⟩
  | values {source : ValuesSource} {list : ValuesList} {cells : List (Value × ColumnType)}
      (hj : j.source = .values source) (hlist : b.valuesList source = .ok list)
      (hcells : list.cells.mapM (b.bindCell (b.context slots)) = .ok cells) :
      SourceBinds b inner slots j { source := .values list.columns list.rowCount cells }

theorem bindSource_eq_ok_iff {found : FoundSource} :
    b.bindSource inner slots j = .ok found ↔ b.SourceBinds inner slots j found := by
  constructor
  · intro h
    unfold bindSource at h
    cases hj : j.source <;> simp only [hj] at h
    case table ref =>
      cases h
      exact .table hj
    case runtime p =>
      obtain ⟨arg, harg, h⟩ := bind_eq_ok.mp h
      obtain ⟨ref, href, h⟩ := bind_eq_ok.mp h
      cases h
      exact .runtime hj harg href
    case subquery query tablePrefix =>
      obtain ⟨q, hq, h⟩ := bind_eq_ok.mp h
      obtain ⟨boundPrefix, hpre, h⟩ := bind_eq_ok.mp h
      obtain ⟨bound, hbound, h⟩ := bind_eq_ok.mp h
      cases h
      exact .subquery hj hq hpre hbound
    case association a =>
      unfold bindAssociation at h
      split at h
      · rename_i r ha
        cases h
        exact .association hj ha
      · rename_i ha
        obtain ⟨name, hname, h⟩ := bind_eq_ok.mp h
        obtain ⟨r, hr, h⟩ := bind_eq_ok.mp h
        cases h
        exact .late hj ha hname hr
    case values source =>
      obtain ⟨list, hlist, h⟩ := bind_eq_ok.mp h
      obtain ⟨cells, hcells, h⟩ := bind_eq_ok.mp h
      cases h
      exact .values hj hlist hcells
  · intro h
    unfold bindSource
    cases h with
    | table hj => simp only [hj]; rfl
    | runtime hj harg href => simp only [hj, harg, href, ok_bind]; rfl
    | subquery hj hq hpre hbound => simp only [hj, hq, hpre, hbound, ok_bind]; rfl
    | association hj ha => simp only [hj, bindAssociation, ha]; rfl
    | late hj ha hname hr => simp only [hj, bindAssociation, ha, hname, hr, ok_bind]; rfl
    | values hj hlist hcells => simp only [hj, bindValues, hlist, hcells, ok_bind]; rfl

/-! ## Conditions and aliases -/

theorem bindOn_eq_ok_iff {on : BoundCondition} :
    b.bindOn slots j late = .ok on ↔
      ∃ c args, b.onCondition slots j = .ok (c, args) ∧
        (∀ s ∈ (conjoin late c).slots, s ≤ j.lastSlot) ∧
        ∃ params, (conjoin late c).params.mapM (bindParam (b.context slots) args) = .ok params ∧
          ⟨(conjoin late c).term.mapTags (b.context slots).resolve, params⟩ = on := by
  simp only [bindOn, bind_eq_ok, pure_eq_ok, checkLastSlot_eq_ok_iff,
    Condition.forall_mem_maxSlot?]
  constructor
  · rintro ⟨⟨c, args⟩, hc, -, hlast, params, hparams, rfl⟩
    exact ⟨c, args, hc, hlast, params, hparams, rfl⟩
  · rintro ⟨c, args, hc, hlast, params, hparams, rfl⟩
    exact ⟨(c, args), hc, (), hlast, params, hparams, rfl⟩

/-- An alias that is known is taken over as it is. -/
theorem bindAlias_of_known (h : ∀ p, j.joinAlias ≠ .explicit (.deferred p)) :
    b.bindAlias slots j = .ok (j.joinAlias.name?, slots) := by
  unfold bindAlias
  rcases hj : j.joinAlias with _ | (name | p) | name
  · rfl
  · rfl
  · exact absurd hj (h p)
  · rfl

/-- An alias that is supplied must be free. -/
theorem bindAlias_of_supplied {p : Placeholder} {arg : Argument} {name : String}
    (hj : j.joinAlias = .explicit (.deferred p)) (ha : b.arguments.get? p = some arg)
    (hn : arg.name? = some name) :
    b.bindAlias slots j =
      if slots.aliases.contains name then .error (.duplicateAlias name p.text)
      else .ok (some name, { slots with aliases := slots.aliases.insert name j.slot }) := by
  have harg : b.arguments.require p = .ok arg := Arguments.require_eq_ok_iff.mpr ha
  unfold bindAlias
  simp only [hj, harg, ok_bind]
  unfold Argument.name? at hn
  split at hn <;> cases hn
  · by_cases hc : slots.aliases.contains name <;> simp only [hc] <;> rfl
  · by_cases hc : slots.aliases.contains name <;> simp only [hc] <;> rfl

theorem exists_name_of_bindAlias {p : Placeholder} (hj : j.joinAlias = .explicit (.deferred p))
    {r : Option String × BoundSlots} (h : b.bindAlias slots j = .ok r) :
    ∃ arg name, b.arguments.get? p = some arg ∧ arg.name? = some name := by
  unfold bindAlias at h
  simp only [hj] at h
  obtain ⟨arg, harg, h⟩ := bind_eq_ok.mp h
  refine ⟨arg, ?_⟩
  have hget := Arguments.require_eq_ok_iff.mp harg
  split at h
  · exact ⟨_, hget, rfl⟩
  · exact ⟨_, hget, rfl⟩
  · cases h

theorem schemas_of_bindAlias {aliasName : Option String}
    (h : b.bindAlias slots j = .ok (aliasName, slots')) : slots'.schemas = slots.schemas := by
  by_cases hj : ∃ p, j.joinAlias = .explicit (.deferred p)
  · obtain ⟨p, hp⟩ := hj
    obtain ⟨arg, name, harg, hname⟩ := exists_name_of_bindAlias hp h
    rw [bindAlias_of_supplied hp harg hname] at h
    split at h <;> cases h
    rfl
  · rw [bindAlias_of_known (not_exists.mp hj)] at h
    cases h
    rfl

/-! ## The parts of a join -/

/-- The parts of a join, each as it is bound, all but the alias. -/
structure Parts (b : Binder) (inner : Query → Except Failure BoundQuery) (slots : BoundSlots)
    (j : Join) where
  found : FoundSource
  on : BoundCondition
  tablePrefix : Option String
  hints : List String
  extensions : OrderedMap Value
  slot_eq : j.slot = slots.schemas.length
  found_eq : b.bindSource inner slots j = .ok found
  on_eq : b.bindOn ⟨slots.aliases, slots.schemas ++ found.source.slotSchemas j.arity⟩ j
    found.lateCondition = .ok on
  prefix_eq : b.bindPrefix j.tablePrefix = .ok tablePrefix
  hints_eq : b.bindHints j.hints = .ok hints
  extensions_eq : j.extensions.traverse b.bindExtension = .ok extensions

namespace Parts

/-- The slots up to and including those of the join. -/
def grown (p : b.Parts inner slots j) : BoundSlots :=
  ⟨slots.aliases, slots.schemas ++ p.found.source.slotSchemas j.arity⟩

def join (p : b.Parts inner slots j) (aliasName : Option String) : BoundJoin where
  qualifier := j.qualifier
  source := p.found.source
  on := p.on
  aliasName := aliasName
  tablePrefix := p.tablePrefix
  hints := p.hints
  extensions := p.extensions
  slot := j.slot
  arity := j.arity

/-- Once its parts are bound, a join is bound as its alias is. -/
theorem bindJoin_eq (p : b.Parts inner slots j) :
    b.bindJoin inner slots j = (b.bindAlias p.grown j).map fun r => (p.join r.1, r.2) := by
  have hslot : ¬ j.slot ≠ slots.schemas.length := fun h => h p.slot_eq
  have hon := p.on_eq
  unfold bindJoin
  simp only [hslot, ↓reduceIte, p.found_eq, ok_bind, hon, p.prefix_eq, p.hints_eq,
    p.extensions_eq]
  change (b.bindAlias p.grown j >>= _) = _
  cases b.bindAlias p.grown j <;> rfl

/-- A join at the same slots whose parts are bound to the same is itself bound to the same, but for
its alias. -/
theorem exists_exchange {b' : Binder} {inner' : Query → Except Failure BoundQuery} {j' : Join}
    (p : b.Parts inner slots j) (hqualifier : j'.qualifier = j.qualifier)
    (hslot : j'.slot = j.slot) (harity : j'.arity = j.arity)
    (hschemas : slots'.schemas = slots.schemas) {found : FoundSource}
    (hfound : b'.bindSource inner' slots' j' = .ok found) (hsource : found.source = p.found.source)
    (hon : b'.bindOn ⟨slots'.aliases, p.grown.schemas⟩ j' found.lateCondition = .ok p.on)
    (hpre : b'.bindPrefix j'.tablePrefix = b.bindPrefix j.tablePrefix)
    (hhints : b'.bindHints j'.hints = b.bindHints j.hints)
    (hextensions : j'.extensions.traverse b'.bindExtension =
      j.extensions.traverse b.bindExtension) :
    ∃ p' : b'.Parts inner' slots' j', p'.join = p.join ∧
      p'.grown = ⟨slots'.aliases, p.grown.schemas⟩ := by
  have hgrown : slots'.schemas ++ found.source.slotSchemas j'.arity = p.grown.schemas := by
    rw [hschemas, hsource, harity]
    rfl
  refine ⟨⟨found, p.on, p.tablePrefix, p.hints, p.extensions, ?_, hfound, ?_,
    hpre.trans p.prefix_eq, hhints.trans p.hints_eq, hextensions.trans p.extensions_eq⟩, ?_, ?_⟩
  · rw [hslot, hschemas]
    exact p.slot_eq
  · rw [hgrown]
    exact hon
  · funext aliasName
    simp only [join, hqualifier, hsource, hslot, harity]
  · exact congrArg (BoundSlots.mk slots'.aliases) hgrown

end Parts

theorem exists_parts_of_bindJoin {bound : BoundJoin}
    (h : b.bindJoin inner slots j = .ok (bound, slots')) :
    ∃ (p : b.Parts inner slots j) (aliasName : Option String),
      b.bindAlias p.grown j = .ok (aliasName, slots') ∧ p.join aliasName = bound := by
  have hslot : j.slot = slots.schemas.length := by
    by_contra hne
    simp [bindJoin, hne] at h
  simp only [bindJoin, hslot, ne_eq, not_true_eq_false, ↓reduceIte, bind_eq_ok, pure_eq_ok] at h
  obtain ⟨found, hfound, on, hon, ⟨aliasName, _⟩, halias, tablePrefix, hpre, hints, hhints,
    extensions, hextensions, he⟩ := h
  cases he
  refine ⟨⟨found, on, tablePrefix, hints, extensions, hslot, hfound, hon, hpre, hhints,
    hextensions⟩, aliasName, halias, ?_⟩
  simp only [Parts.join, hslot]

theorem schemas_of_bindJoin {bound : BoundJoin}
    (h : b.bindJoin inner slots j = .ok (bound, slots')) :
    slots'.schemas = slots.schemas ++ bound.slotSchemas ∧
      bound.slot + bound.arity = slots'.schemas.length := by
  obtain ⟨p, aliasName, halias, rfl⟩ := exists_parts_of_bindJoin h
  have hschemas : slots'.schemas = slots.schemas ++ p.found.source.slotSchemas j.arity :=
    schemas_of_bindAlias halias
  refine ⟨hschemas, ?_⟩
  rw [hschemas, List.length_append, BoundSource.length_slotSchemas, ← p.slot_eq]
  rfl

/-! ## Runs over joins -/

theorem bindJoins_cons_eq_ok_iff {rest : List Join} {bounds : List BoundJoin} :
    b.bindJoins inner slots (j :: rest) = .ok (bounds, slots') ↔
      ∃ bound t, b.bindJoin inner slots j = .ok (bound, t) ∧
        ∃ more, b.bindJoins inner t rest = .ok (more, slots') ∧ bound :: more = bounds := by
  constructor
  · intro h
    rw [bindJoins] at h
    split at h
    · cases h
    · rename_i bound t hbound
      split at h
      · cases h
      · rename_i more u hmore
        cases h
        exact ⟨bound, t, hbound, more, hmore, rfl⟩
  · rintro ⟨bound, t, hbound, more, hmore, rfl⟩
    simp only [bindJoins, hbound, hmore]

theorem schemas_of_bindJoins {js : List Join} {bounds : List BoundJoin}
    (h : b.bindJoins inner slots js = .ok (bounds, slots')) :
    slots'.schemas = slots.schemas ++ bounds.flatMap BoundJoin.slotSchemas := by
  induction js generalizing slots bounds with
  | nil =>
    cases h
    exact (List.append_nil _).symm
  | cons j rest ih =>
    obtain ⟨bound, t, hbound, more, hmore, rfl⟩ := bindJoins_cons_eq_ok_iff.mp h
    rw [ih hmore, (schemas_of_bindJoin hbound).1, List.flatMap_cons, List.append_assoc]

theorem length_schemas_of_bindJoins {js : List Join} {bounds : List BoundJoin}
    (h : b.bindJoins inner slots js = .ok (bounds, slots')) :
    (bounds.flatMap BoundJoin.slotSchemas).length = Join.totalArity js := by
  induction js generalizing slots bounds with
  | nil =>
    cases h
    rfl
  | cons j rest ih =>
    obtain ⟨bound, t, hbound, more, hmore, rfl⟩ := bindJoins_cons_eq_ok_iff.mp h
    obtain ⟨p, aliasName, -, rfl⟩ := exists_parts_of_bindJoin hbound
    rw [List.flatMap_cons, List.length_append, BoundJoin.length_slotSchemas, ih hmore,
      Join.totalArity]
    rfl

theorem bindJoins_append_of_ok {js ks : List Join} {bounds : List BoundJoin}
    (h : b.bindJoins inner slots js = .ok (bounds, slots')) :
    b.bindJoins inner slots (js ++ ks) =
      (b.bindJoins inner slots' ks).map fun r => (bounds ++ r.1, r.2) := by
  induction js generalizing slots bounds with
  | nil =>
    cases h
    rw [List.nil_append]
    cases b.bindJoins inner slots' ks <;> rfl
  | cons j rest ih =>
    obtain ⟨bound, t, hbound, more, hmore, rfl⟩ := bindJoins_cons_eq_ok_iff.mp h
    simp only [List.cons_append, bindJoins, hbound, ih hmore]
    cases b.bindJoins inner slots' ks <;> rfl

theorem bindJoins_append_of_error {js ks : List Join} {failure : Failure}
    (h : b.bindJoins inner slots js = .error failure) :
    b.bindJoins inner slots (js ++ ks) = .error failure := by
  induction js generalizing slots with
  | nil => cases h
  | cons j rest ih =>
    rw [List.cons_append]
    rw [bindJoins] at h ⊢
    split at h
    · exact h
    · rename_i bound t hbound
      split at h
      · rename_i hrest
        cases h
        simp only [ih hrest]
      · cases h

theorem bindWithin_succ_eq_ok_iff {depth : Nat} {q : Query} {bound : BoundQuery} :
    b.bindWithin (depth + 1) q = .ok bound ↔
      ∃ joins t, b.bindJoins (b.bindWithin depth) ⟨q.aliases, [q.base.source.schema]⟩ q.joins =
        .ok (joins, t) ∧ ⟨q.base, joins, t.aliases⟩ = bound := by
  constructor
  · intro h
    rw [bindWithin] at h
    split at h
    · cases h
    · rename_i joins t hjoins
      cases h
      exact ⟨joins, t, hjoins, rfl⟩
  · rintro ⟨joins, t, hjoins, rfl⟩
    simp only [bindWithin, hjoins]

/-- A query is bound as its joins are, one after the other behind the base. -/
theorem bind_eq (b : Binder) (q : Query) :
    b.bind q = (b.bindJoins (b.bindWithin (Join.totalArity q.joins))
      ⟨q.aliases, [q.base.source.schema]⟩ q.joins).map fun r => ⟨q.base, r.1, r.2.aliases⟩ := by
  rw [bind, Query.slotCount, Nat.add_comm, bindWithin]
  cases b.bindJoins (b.bindWithin (Join.totalArity q.joins)) ⟨q.aliases, [q.base.source.schema]⟩
    q.joins <;> rfl

theorem bind_eq_ok_iff {q : Query} {bound : BoundQuery} :
    b.bind q = .ok bound ↔
      ∃ joins t, b.bindJoins (b.bindWithin (Join.totalArity q.joins))
        ⟨q.aliases, [q.base.source.schema]⟩ q.joins = .ok (joins, t) ∧
        ⟨q.base, joins, t.aliases⟩ = bound := by
  rw [bind, Query.slotCount, Nat.add_comm]
  exact bindWithin_succ_eq_ok_iff

end Binder

end StagedJoin
