import StagedJoin.Proofs.Bound.Late
import StagedJoin.Proofs.Bound.Naming
import StagedJoin.Proofs.Compiler.Deferral
import StagedJoin.Proofs.Condition.Placeholders

/-!
Parts of a join that are supplied. A join with parts that are given is bound to what the
join with placeholders for them is bound to, once arguments that stand for those parts are
supplied, and the one is bound if the other is. The types that are only found in binding
are the ones that were known with the join, and an association that is found late puts its
condition in front as one that was found before.
-/
namespace StagedJoin

namespace Binder

variable {A : Placeholder → Prop} {c : Compiler} {args args' : Arguments}

/-! ## Parts -/

theorem require_of_getAs? {α : Type} {view : Argument → Option α} {p : Placeholder} {a : α}
    (h : args.getAs? view p = some a) : ∃ arg, args.require p = .ok arg ∧ view arg = some a := by
  obtain ⟨arg, harg, hview⟩ := Arguments.getAs?_eq_some_iff.mp h
  exact ⟨arg, Arguments.require_eq_ok_iff.mpr harg, hview⟩

theorem bindPrefix_of_defers (h : args.Agree A args') {s s' : Option (Staged String)}
    (hs : Option.Rel (Staged.Defers (args'.getAs? Argument.string?)) s s')
    (hp : ∀ p ∈ Staged.placeholders? s, A p) :
    bindPrefix ⟨c, args'⟩ s' = bindPrefix ⟨c, args⟩ s := by
  cases hs with
  | none => rfl
  | some hs =>
    cases hs with
    | same => exact bindPrefix_congr h hp
    | supplied hvalue =>
      obtain ⟨arg, harg, hview⟩ := require_of_getAs? hvalue
      unfold Argument.string? at hview
      split at hview <;> cases hview
      simp only [bindPrefix, harg]
      rfl

theorem hintTexts_of_strings {arg : Argument} {items : List Value} {ss : List String}
    (h : items.mapM Value.asString? = some ss) : hintTexts arg items = .ok ss := by
  induction items generalizing ss with
  | nil =>
    cases h
    rfl
  | cons v rest ih =>
    rw [List.mapM_cons, Option.bind_eq_bind, Option.bind_eq_some_iff] at h
    obtain ⟨s, hs, h⟩ := h
    rw [Option.bind_eq_bind, Option.bind_eq_some_iff] at h
    obtain ⟨more, hmore, h⟩ := h
    cases h
    unfold Value.asString? at hs
    split at hs <;> cases hs
    simp only [hintTexts, ih hmore]
    rfl

theorem bindHints_of_defers (h : args.Agree A args') {s s' : Option (Staged (List String))}
    (hs : Option.Rel (Staged.Defers (args'.getAs? Argument.strings?)) s s')
    (hp : ∀ p ∈ Staged.placeholders? s, A p) :
    bindHints ⟨c, args'⟩ s' = bindHints ⟨c, args⟩ s := by
  cases hs with
  | none => rfl
  | some hs =>
    cases hs with
    | same => exact bindHints_congr h hp
    | supplied hvalue =>
      obtain ⟨arg, harg, hview⟩ := require_of_getAs? hvalue
      unfold Argument.strings? at hview
      split at hview
      · cases hview
        simp only [bindHints, harg]
        rfl
      · simp only [bindHints, harg, ok_bind]
        exact hintTexts_of_strings hview
      · cases hview

theorem bindExtension_of_defers (h : args.Agree A args') (name : String) {s s' : Staged Value}
    (hs : s.Defers (args'.getAs? Argument.value?) s') (hp : ∀ p ∈ s.placeholders, A p) :
    bindExtension ⟨c, args'⟩ name s' = bindExtension ⟨c, args⟩ name s := by
  cases hs with
  | same => exact bindExtension_congr h name hp
  | supplied hvalue =>
    obtain ⟨arg, harg, hview⟩ := require_of_getAs? hvalue
    unfold Argument.value? at hview
    split at hview <;> cases hview
    simp only [bindExtension, harg]
    rfl

theorem associationName_of_supplied {p : Placeholder} {name : String}
    (h : args.getAs? Argument.name? p = some name) :
    associationName ⟨c, args⟩ (.deferred p) = .ok name := by
  obtain ⟨arg, harg, hview⟩ := require_of_getAs? h
  unfold Argument.name? at hview
  split at hview <;> cases hview
  · simp only [associationName, harg]
    rfl
  · simp only [associationName, harg]
    rfl

theorem subqueryOf_of_defers (h : args.Agree A args') {query query' : Staged Query}
    (hq : query.Defers (args'.getAs? Argument.query?) query') {arity : Nat}
    (hp : ∀ p ∈ JoinSource.queryPlaceholders query, A p)
    (hcount : ∀ q, query = .literal q → q.slotCount = arity) :
    subqueryOf ⟨c, args'⟩ arity query' = subqueryOf ⟨c, args⟩ arity query := by
  cases hq with
  | same => exact subqueryOf_congr h arity hp
  | @supplied p q hvalue =>
    obtain ⟨arg, harg, hview⟩ := require_of_getAs? hvalue
    unfold Argument.query? at hview
    split at hview <;> cases hview
    rw [← hcount q rfl]
    simp only [subqueryOf, harg, ok_bind, if_pos]
    rfl

/-! ## Sources -/

section

variable {ctx : SourceContext} {t : BoundSlots} {j j' : Join} (hview : ctx.view = c.view)
  (hknown : ∀ k schema, ctx.schema? k = some schema → t.schemas[k]?.join = some schema)

include hview hknown

/-- An association that was found with the one join may be found only now for the other. -/
theorem bindAssociation_of_defers (slot : Nat) {owner : Nat} {name : String} {p : Placeholder}
    {resolved : Option ResolvedAssociation} (hname : args'.getAs? Argument.name? p = some name)
    (hr : ∀ r, resolved = some r → ∃ schema, ctx.schema? owner = some schema ∧
      ctx.view.association? schema name = some r) :
    (bindAssociation ⟨c, args'⟩ t slot ⟨owner, .deferred p, none⟩).map FoundSource.source =
      (bindAssociation ⟨c, args⟩ t slot ⟨owner, .literal name, resolved⟩).map
        FoundSource.source := by
  simp only [bindAssociation, associationName_of_supplied hname, ok_bind]
  cases resolved with
  | none =>
    -- which association is found does not depend on the arguments
    change Except.map _ (findAssociation ⟨c, args⟩ t owner name >>= _) =
      Except.map _ (findAssociation ⟨c, args⟩ t owner name >>= _)
    cases findAssociation ⟨c, args⟩ t owner name <;> rfl
  | some r =>
    obtain ⟨schema, hschema, hfound⟩ := hr r rfl
    have hfind : findAssociation ⟨c, args'⟩ t owner name = .ok r := by
      rw [hview] at hfound
      simp only [findAssociation, hknown owner schema hschema, hfound]
    rw [hfind]
    rfl

/-- The source is bound to the same, although its condition may come only now. -/
theorem bindSource_of_defers (h : args.Agree A args')
    {inner inner' : Query → Except Failure BoundQuery} (hinner : SameWithin A inner inner')
    {named : Prop} (hs : j.source.Defers args' ctx named j'.source) (hslot : j'.slot = j.slot)
    (harity : j'.arity = j.arity) (hp : ∀ p ∈ j.source.placeholders, A p)
    (hcount : ∀ q p, j.source = .subquery (.literal q) p → q.slotCount = j.arity) :
    (bindSource ⟨c, args'⟩ inner' t j').map FoundSource.source =
      (bindSource ⟨c, args⟩ inner t j).map FoundSource.source := by
  have hcongr := bindSource_congr_arguments (c := c) h hinner t hp
  unfold bindSource at hcongr ⊢
  rw [hslot, harity]
  generalize j.source = source at hs hp hcount hcongr ⊢
  generalize j'.source = source' at hs ⊢
  cases hs with
  | same => rw [hcongr]
  | table hget href => simp only [Arguments.require_eq_ok_iff.mpr hget, href, ok_bind]
  | @subquery query query' tablePrefix tablePrefix' hq htp =>
    have hpre : bindPrefix ⟨c, args'⟩ tablePrefix' = bindPrefix ⟨c, args⟩ tablePrefix :=
      bindPrefix_of_defers h htp fun p hm => hp p (List.mem_append_right _ hm)
    have hquery : ∀ p ∈ JoinSource.queryPlaceholders query, A p :=
      fun p hm => hp p (List.mem_append_left _ hm)
    have hsame : subqueryOf ⟨c, args'⟩ j.arity query' = subqueryOf ⟨c, args⟩ j.arity query := by
      refine subqueryOf_of_defers h hq hquery ?_
      rintro q rfl
      exact hcount q tablePrefix rfl
    simp only [hpre, hsame]
    cases hsub : subqueryOf ⟨c, args⟩ j.arity query with
    | error f => rfl
    | ok q => rw [ok_bind, ok_bind, hinner q (placeholders_of_subqueryOf h hquery hsub)]
  | association hnamed hname hr => exact bindAssociation_of_defers hview hknown j.slot hname hr

/-- An association that is missing is not found in binding either. -/
theorem exists_error_of_missing {inner : Query → Except Failure BoundQuery}
    (hs : j.source.Missing args ctx) : ∃ f, bindSource ⟨c, args⟩ inner t j = .error f := by
  obtain ⟨owner, p, name, schema, hsource, hname, hschema, hnone⟩ := hs
  rw [hview] at hnone
  have hfind : ∃ f, findAssociation ⟨c, args⟩ t owner name = .error f := by
    simp only [findAssociation, hknown owner schema hschema, hnone]
    exact ⟨_, rfl⟩
  obtain ⟨f, hfind⟩ := hfind
  refine ⟨f, ?_⟩
  unfold bindSource
  simp only [hsource, bindAssociation, associationName_of_supplied hname, ok_bind, hfind]
  rfl

end

/-! ## Aliases -/

section Alias

variable {j j' : Join} {name? aliasName : Option String} {late early u u' : BoundSlots}

/-- A name that is supplied must be free. -/
theorem free_of_bindAlias (hname : j.joinAlias.Defers args name? j'.joinAlias)
    (hbind : bindAlias ⟨c, args⟩ late j' = .ok (aliasName, u')) :
    ∀ name ∈ name?, late.aliases.get? name = none := by
  rcases hname.eq_or_supplied with ⟨rfl, -⟩ | ⟨name, p, rfl, -, ha', hp⟩
  · exact fun _ hn => nomatch hn
  · rintro _ ⟨⟩
    obtain ⟨arg, harg, hview⟩ := Arguments.getAs?_eq_some_iff.mp hp
    rw [bindAlias_of_supplied ha' harg hview] at hbind
    split at hbind
    · cases hbind
    · rename_i hfree
      simpa using hfree

/-- The name of the join is the one that was registered with it, or it is registered now. -/
theorem bindAlias_of_defers (h : args.Agree A args') (hp : ∀ p ∈ j.joinAlias.placeholders, A p)
    (hname : j.joinAlias.Defers args' name? j'.joinAlias) (hslot : j'.slot = j.slot)
    (hnamed : late.NamedEarly name? j.slot early) :
    (∀ u, bindAlias ⟨c, args⟩ early j = .ok (aliasName, u) →
        ∃ u', bindAlias ⟨c, args'⟩ late j' = .ok (aliasName, u') ∧
          ∀ key, u'.aliases.get? key = u.aliases.get? key) ∧
      ∀ u', bindAlias ⟨c, args'⟩ late j' = .ok (aliasName, u') →
        ∃ u, bindAlias ⟨c, args⟩ early j = .ok (aliasName, u) ∧
          ∀ key, u'.aliases.get? key = u.aliases.get? key := by
  rcases hname.eq_or_supplied with ⟨rfl, ha⟩ | ⟨name, p, rfl, ha, ha', hsupplied⟩
  · have hsame : bindAlias ⟨c, args'⟩ late j' = bindAlias ⟨c, args⟩ late j := by
      rw [← bindAlias_congr h hp]
      simp only [bindAlias, ha, hslot]
    rw [hsame]
    constructor
    · intro u hu
      obtain ⟨u', hu', hlast⟩ := bindAlias_late hnamed hu
      exact ⟨u', hu', hlast.get?_eq_of_none⟩
    · intro u' hu'
      obtain ⟨u, hu, hlast⟩ := bindAlias_early hnamed hu' fun _ hn => nomatch hn
      exact ⟨u, hu, hlast.get?_eq_of_none⟩
  · obtain ⟨arg, harg, hview⟩ := Arguments.getAs?_eq_some_iff.mp hsupplied
    have hknown : ∀ p, j.joinAlias ≠ .explicit (.deferred p) := by
      rw [ha]
      exact fun _ he => nomatch he
    have hfree : ¬ late.aliases.contains name = true := by simp [hnamed.free name rfl]
    rw [bindAlias_of_known hknown, bindAlias_of_supplied ha' harg hview, if_neg hfree, hslot, ha]
    constructor
    · rintro _ ⟨⟩
      exact ⟨_, rfl, hnamed.get?_insert⟩
    · rintro _ ⟨⟩
      exact ⟨_, rfl, hnamed.get?_insert⟩

end Alias

/-! ## Conditions -/

theorem settles_congr_arguments (h : args.Agree A args') {slots : BoundSlots} {last : Nat}
    {cond : Condition} {on : BoundCondition} (hp : ∀ p ∈ cond.placeholders, A p) :
    Settles ⟨c, args'⟩ slots last args' cond on ↔ Settles ⟨c, args⟩ slots last args cond on := by
  have hparams : cond.params.mapM (bindParam (context ⟨c, args'⟩ slots) args') =
      cond.params.mapM (bindParam (context ⟨c, args⟩ slots) args) :=
    mapM_congr fun param hparam =>
      bindParam_congr h _ fun p hm => hp p (List.mem_flatMap.mpr ⟨param, hparam, hm⟩)
  unfold Settles
  rw [hparams]
  rfl

section Parts

variable {q : Query} {i i' : Invocation} {p : c.Parts q i} {p' : c.Parts q i'}
  {inner inner' : Query → Except Failure BoundQuery} {t t' : BoundSlots}

/-- With as much known as there is when the join is bound, its condition is bound to the same. -/
theorem bindOn_iff_of_defers (h : args.Agree A args') (hc : c.conditions = .standard)
    (hon : i.HasStaticOn) (hd : p.Defers args' p')
    (hp : ∀ pl ∈ p.options.on?.elim [] Expr.placeholders, A pl)
    {aliases aliases' : OrderedMap Nat} {schemas : List (Option String)}
    (hschemas : SchemasRefine p.context.schemas schemas) {found found' : FoundSource}
    (hfound : bindSource ⟨c, args⟩ inner t p.join = .ok found)
    (hfound' : bindSource ⟨c, args'⟩ inner' t' p'.join = .ok found')
    (hsource : found'.source = found.source) {on : BoundCondition} :
    bindOn ⟨c, args'⟩ ⟨aliases', schemas⟩ p'.join found'.lateCondition = .ok on ↔
      bindOn ⟨c, args⟩ ⟨aliases, schemas⟩ p.join found.lateCondition = .ok on := by
  -- both conditions come from one expression, so they are the same once all types are known
  obtain ⟨hwritten, hstatic⟩ := hon.on? p.options_eq
  obtain ⟨cond, hcond, hclause, hslots⟩ := p.exists_condition hc hwritten
  obtain ⟨cond', hcond', hclause', hslots'⟩ := p'.exists_condition hc (hd.options.on? ▸ hwritten)
  let late : Context := ⟨p.joined, schemas, c.view⟩
  have hrefines : p.context.Refines late := Context.refines_of_schemas rfl hschemas
  have hrefines' : p'.context.Refines late :=
    Context.refines_of_schemas rfl (hd.schemas.trans hschemas)
  have hresolve : cond'.resolve late = cond.resolve late := by
    rw [hd.options.on?] at hcond'
    exact OnClause.compiled.inj (OnClause.resolve_eq_of_refines hrefines hrefines' rfl
      hd.joined_eq.symm hstatic hcond hcond')
  have hlast : p'.join.lastSlot = p.join.lastSlot :=
    congrArg (fun arity => q.slotCount + arity - 1) hd.arity_eq
  have hwithin : ∀ pl ∈ cond.placeholders, A pl :=
    fun pl hm => hp pl (OnClause.placeholders_of_ofExpr? hcond hm)
  have hbare : ∀ cond : Condition, (OnClause.compiled cond).Bare := fun _ _ _ he => nomatch he
  have hle : ∀ {cond : Condition}, (∀ s ∈ cond.slots, s < q.slotCount + p.arity) →
      ∀ s ∈ cond.slots, s ≤ p.join.lastSlot := by
    intro cond hcond s hs
    have hlt := hcond s hs
    change s ≤ q.slotCount + p.arity - 1
    omega
  rw [bindOn_eq_ok_iff_user hfound' hclause' (hbare cond')
      (p'.natural_le_lastSlot rfl rfl rfl hfound'),
    bindOn_eq_ok_iff_user hfound hclause (hbare cond) (p.natural_le_lastSlot rfl rfl rfl hfound),
    hsource]
  refine exists_congr fun user => and_congr_left fun _ => ?_
  rw [bindOn_compiled_iff, bindOn_compiled_iff, hlast]
  rw [hd.arity_eq] at hslots'
  constructor
  · intro hsettles
    have hsame : Settles ⟨c, args'⟩ ⟨aliases', schemas⟩ p.join.lastSlot args' cond user :=
      hsettles.of_resolve_eq hresolve.symm (hle hslots)
    exact (settles_congr_arguments h hwithin).mp hsame
  · intro hsettles
    have hsame := (settles_congr_arguments h hwithin).mpr hsettles
    exact hsame.of_resolve_eq hresolve (hle hslots')

/-! ## The last join -/

variable (h : args.Agree A args') (hinner : SameWithin A inner inner')
  (hc : c.conditions = .standard) (hon : i.HasStaticOn) (hd : p.Defers args' p')
  (hi : ∀ pl ∈ i.placeholders, A pl) (hs : t'.schemas = t.schemas)
  (hknown : SchemasRefine q.slotSchemas t.schemas)

include h hd hi

/-- The prefix, the hints and the extensions are those that are given. -/
theorem bindOptions_of_defers :
    bindPrefix ⟨c, args'⟩ p'.join.tablePrefix = bindPrefix ⟨c, args⟩ p.join.tablePrefix ∧
      bindHints ⟨c, args'⟩ p'.join.hints = bindHints ⟨c, args⟩ p.join.hints ∧
      p'.join.extensions.traverse (bindExtension ⟨c, args'⟩) =
        p.join.extensions.traverse (bindExtension ⟨c, args⟩) := by
  have hwithin := p.within_apart_clause hi
  refine ⟨bindPrefix_of_defers h hd.options.tablePrefix? hwithin.tablePrefix,
    bindHints_of_defers h hd.options.hints? hwithin.hints, ?_⟩
  refine hd.options.extensions.traverse_congr fun e he w hw => ?_
  exact bindExtension_of_defers h e.1 hw (hwithin.extensions e he)

include hinner hs hknown

theorem bindSource_join_of_defers :
    (bindSource ⟨c, args'⟩ inner' t' p'.join).map FoundSource.source =
      (bindSource ⟨c, args⟩ inner t p.join).map FoundSource.source := by
  rw [bindSource_congr (j := p'.join) hs]
  have hseen : ∀ k schema, p.sourceContext.schema? k = some schema →
      t.schemas[k]?.join = some schema := fun k schema hk => hknown.join_getElem? hk
  refine bindSource_of_defers rfl hseen h hinner hd.source rfl hd.arity_eq
    (p.within_apart_clause hi).source fun sub tp hsub => ?_
  have hsized := p.sound.subquery sub tp hsub
  change sub.slotCount = p.vars.arityWith p.sized
  rw [JoinVars.arityWith, hsized]
  rfl

include hc hon

variable (hlate : ∀ found, bindSource ⟨c, args⟩ inner t p.join = .ok found →
  SchemasRefine p.context.schemas (t.schemas ++ found.source.slotSchemas p.arity))

include hlate

theorem exists_parts_supplied (parts : Parts ⟨c, args⟩ inner t p.join) :
    ∃ parts' : Parts ⟨c, args'⟩ inner' t' p'.join, parts'.join = parts.join ∧
      parts'.grown = ⟨t'.aliases, parts.grown.schemas⟩ := by
  have hmap := bindSource_join_of_defers h hinner hd hi hs hknown
  rw [parts.found_eq] at hmap
  obtain ⟨found', hfound', hsource⟩ := map_eq_ok.mp hmap
  obtain ⟨hpre, hhints, hextensions⟩ := bindOptions_of_defers h hd hi
  refine parts.exists_exchange hd.qualifier_eq rfl hd.arity_eq hs hfound' hsource ?_ hpre hhints
    hextensions
  exact (bindOn_iff_of_defers h hc hon hd (fun pl hm => hi pl (p.placeholders_of_on? hm))
    (hlate _ parts.found_eq) parts.found_eq hfound' hsource).mpr parts.on_eq

theorem exists_parts_given (parts' : Parts ⟨c, args'⟩ inner' t' p'.join) :
    ∃ parts : Parts ⟨c, args⟩ inner t p.join, parts.join = parts'.join ∧
      parts'.grown = ⟨t'.aliases, parts.grown.schemas⟩ := by
  have hmap := bindSource_join_of_defers h hinner hd hi hs hknown
  rw [parts'.found_eq] at hmap
  obtain ⟨found, hfound, hsource⟩ := map_eq_ok.mp hmap.symm
  obtain ⟨hpre, hhints, hextensions⟩ := bindOptions_of_defers h hd hi
  have hgrown : parts'.grown.schemas = t.schemas ++ found.source.slotSchemas p.arity := by
    change t'.schemas ++ parts'.found.source.slotSchemas p'.arity = _
    rw [hs, hsource, hd.arity_eq]
  have hrefines : SchemasRefine p.context.schemas parts'.grown.schemas :=
    hgrown ▸ hlate found hfound
  obtain ⟨parts, hjoin, hsame⟩ : ∃ parts : Parts ⟨c, args⟩ inner t p.join,
      parts.join = parts'.join ∧ parts.grown = ⟨t.aliases, parts'.grown.schemas⟩ := by
    refine parts'.exists_exchange hd.qualifier_eq.symm rfl hd.arity_eq.symm hs.symm hfound hsource
      ?_ hpre.symm hhints.symm hextensions.symm
    exact (bindOn_iff_of_defers h hc hon hd (fun pl hm => hi pl (p.placeholders_of_on? hm)) hrefines
      hfound parts'.found_eq hsource.symm).mp parts'.on_eq
  refine ⟨parts, hjoin, ?_⟩
  rw [hsame]
  rfl

variable {name? : Option String} (hname : p.joinAlias.Defers args' name? p'.joinAlias)
  (hnamed : t'.NamedEarly name? q.slotCount t)

include hname hnamed

/-- The join with parts that are given and the one that is supplied with them are bound to the
same. -/
theorem bindJoin_of_defers :
    (∀ bound u, bindJoin ⟨c, args⟩ inner t p.join = .ok (bound, u) →
        ∃ u', bindJoin ⟨c, args'⟩ inner' t' p'.join = .ok (bound, u') ∧
          ∀ key, u'.aliases.get? key = u.aliases.get? key) ∧
      ∀ bound u', bindJoin ⟨c, args'⟩ inner' t' p'.join = .ok (bound, u') →
        ∃ u, bindJoin ⟨c, args⟩ inner t p.join = .ok (bound, u) ∧
          ∀ key, u'.aliases.get? key = u.aliases.get? key := by
  have hwithin : ∀ pl ∈ p.join.joinAlias.placeholders, A pl := (p.within_apart_clause hi).joinAlias
  have hname : p.join.joinAlias.Defers args' name? p'.join.joinAlias := hname
  constructor
  · intro bound u hj
    obtain ⟨parts, aliasName, hu, rfl⟩ := exists_parts_of_bindJoin hj
    obtain ⟨parts', hjoin, hgrown⟩ :=
      exists_parts_supplied h hinner hc hon hd hi hs hknown hlate parts
    obtain ⟨u', hu', hkeys⟩ :=
      (bindAlias_of_defers h hwithin hname rfl (hnamed.withSchemas parts.grown.schemas)).1 u hu
    refine ⟨u', ?_, hkeys⟩
    rw [parts'.bindJoin_eq, hgrown, hu', hjoin]
    rfl
  · intro bound u' hj
    obtain ⟨parts', aliasName, hu', rfl⟩ := exists_parts_of_bindJoin hj
    obtain ⟨parts, hjoin, hgrown⟩ :=
      exists_parts_given h hinner hc hon hd hi hs hknown hlate parts'
    rw [hgrown] at hu'
    obtain ⟨u, hu, hkeys⟩ :=
      (bindAlias_of_defers h hwithin hname rfl (hnamed.withSchemas parts.grown.schemas)).2 u' hu'
    have hu : bindAlias ⟨c, args⟩ parts.grown p.join = .ok (aliasName, u) := hu
    refine ⟨u, ?_, hkeys⟩
    rw [parts.bindJoin_eq, hu, hjoin]
    rfl

end Parts

end Binder

end StagedJoin
