import StagedJoin.Proofs.Bound.Clauses
import StagedJoin.Proofs.Bound.Late
import StagedJoin.Proofs.Compiler.Exchange

/-!
Conditions that are supplied. A dynamic condition brings a binding list and values of
its own; it is compiled only when the query is bound, with everything known by then. It
binds a join to what the join is bound to with the condition in its place, as long as
its variables name the same slots, the settings let it stand there, and no interpolated
array takes its type from a slot whose schema only binding finds.
-/
namespace StagedJoin

/-- An expression that is read as a boolean condition: not keywords, a list or an interpolation. -/
structure Expr.IsCondition (e : Expr) : Prop where
  not_keyword : ∀ pairs, e ≠ .keyword pairs
  not_list : ∀ items, e ≠ .list items
  not_interpolated : ∀ p, e ≠ .interpolate p

theorem Expr.isCondition_binary (op : Operator) (l r : Expr) : (Expr.binary op l r).IsCondition :=
  ⟨nofun, nofun, nofun⟩

/-- The clause of a condition is what the condition is compiled to. -/
theorem Expr.IsCondition.ofExpr? {compile : ConditionCompiler} {e : Expr} (h : e.IsCondition)
    (ctx : Context) (slot : Nat) :
    OnClause.ofExpr? compile ctx slot (some e) =
      (Condition.ofExpr compile ctx e).map .compiled := by
  cases e with
  | keyword pairs => exact absurd rfl (h.not_keyword pairs)
  | list items => exact absurd rfl (h.not_list items)
  | interpolate p => exact absurd rfl (h.not_interpolated p)
  | _ => rfl

namespace Context

variable {early late : Context}

theorem tag_eq_of_schema (hview : late.view = early.view) {slot : Nat}
    (h : late.schemas[slot]? = early.schemas[slot]?) (name : String) :
    late.tag slot name = early.tag slot name := by
  rw [tag, tag, schema?, schema?, h, hview]

end Context

/-! ## What a dynamic condition sees -/

namespace DynamicCondition

variable {c : Compiler} {q : Query} {i : Invocation}

/-- In the query that results, the binding list of the condition names the slots of its variables
as the join names them, or leaves them unnamed as the join does. -/
def SeesAlike (d : DynamicCondition) (p : c.Parts q i) (r : Query) : Prop :=
  ∃ scope, Scope.resolve r.slotCount r.aliases (.list d.binding) = .ok scope ∧
    ∀ x ∈ d.expr.vars, scope.slot? x = p.joined.slot? x

/-- No `x.f in ^i` of the condition looks at a slot whose schema only binding finds. -/
def KnownEarly (d : DynamicCondition) (p : c.Parts q i) (r : Query) : Prop :=
  ∀ m ∈ d.expr.memberships, ∀ slot, p.joined.slot? m.1 = some slot → ¬ r.FoundLate slot

end DynamicCondition

namespace Binder

variable {c : Compiler} {args args' : Arguments} {slots : BoundSlots} {j : Join}
  {user : BoundCondition}

theorem bindOn_dynamic_iff {b : Binder} {p : Placeholder} {d : DynamicCondition}
    (hd : b.arguments.get? p = some (.dynamic d)) :
    b.bindOn slots (j.withClause (.deferred p none)) none = .ok user ↔
      ∃ cond, b.dynamicCondition slots j d = .ok cond ∧
        b.Settles slots j.lastSlot d.arguments cond user := by
  have hsupplied : b.suppliedCondition slots (j.withClause (.deferred p none)) p =
      (b.dynamicCondition slots j d).map fun cond => (cond, d.arguments) := by
    have harg : b.arguments.require p = .ok (.dynamic d) := Arguments.require_eq_ok_iff.mpr hd
    simp only [suppliedCondition, harg, ok_bind]
    change (b.dynamicCondition slots j d >>= _) = _
    cases b.dynamicCondition slots j d <;> rfl
  rw [bindOn_eq_ok_iff_settles, onCondition_eq]
  change (∃ cond args, (b.suppliedCondition slots (j.withClause (.deferred p none)) p).map _ =
    .ok (cond, args) ∧ _) ↔ _
  rw [hsupplied]
  constructor
  · rintro ⟨cond, args, hcond, hsettles⟩
    obtain ⟨r, hr, he⟩ := map_eq_ok.mp hcond
    obtain ⟨cond', hcond', rfl⟩ := map_eq_ok.mp hr
    cases he
    exact ⟨cond', hcond', hsettles⟩
  · rintro ⟨cond, hcond, hsettles⟩
    rw [hcond]
    exact ⟨cond, d.arguments, rfl, hsettles⟩

/-- Compiled with its join or when it is bound, the condition is bound to the same. -/
theorem settles_iff_of_seesAlike (args args' : Arguments) {q : Query} {i : Invocation}
    {aliases : OrderedMap Nat} {schemas : List (Option String)} {d : DynamicCondition}
    (hc : c.conditions = .standard)
    (p : c.Parts q i) (hslot : j.slot = q.slotCount) (harity : j.arity = p.arity)
    (hrefine : SchemasRefine p.context.schemas schemas)
    (hsame : SameUnless (Query.FoundLate ⟨q.base, q.joins ++ [j], aliases⟩) p.context.schemas
      schemas)
    (hsees : d.SeesAlike p ⟨q.base, q.joins ++ [j], aliases⟩)
    (hknown : d.KnownEarly p ⟨q.base, q.joins ++ [j], aliases⟩) :
    (∃ cond, Condition.ofExpr .standard p.context d.expr = .ok cond ∧
      Settles ⟨c, args⟩ ⟨aliases, schemas⟩ j.lastSlot d.arguments cond user) ↔
    ∃ cond, dynamicCondition ⟨c, args'⟩ ⟨aliases, schemas⟩ j d = .ok cond ∧
      Settles ⟨c, args'⟩ ⟨aliases, schemas⟩ j.lastSlot d.arguments cond user := by
  obtain ⟨scope, hscope, hslots⟩ := hsees
  let late : Context := ⟨scope, schemas, c.view⟩
  have hcount : Query.slotCount ⟨q.base, q.joins ++ [j], aliases⟩ = j.slot + j.arity := by
    rw [Query.slotCount, totalArity_append_singleton, hslot, Query.slotCount]
    omega
  rw [hcount] at hscope
  have hdynamic : dynamicCondition ⟨c, args'⟩ ⟨aliases, schemas⟩ j d =
      Condition.ofExpr .standard late d.expr := by
    rw [dynamicCondition, hscope, hc]
    rfl
  have hview : late.view = p.context.view := rfl
  have hrefines : p.context.Refines late := Context.refines_of_schemas hview hrefine
  have hagree : p.context.Agree late d.expr.vars d.expr.memberships := by
    refine ⟨hslots, fun m hm => ?_⟩
    have hvar : late.scope.slot? m.1 = p.context.scope.slot? m.1 :=
      hslots m.1 (d.expr.memberships_vars hm)
    simp only [Context.operandTag, hvar]
    cases hslot' : p.context.scope.slot? m.1 with
    | none => rfl
    | some slot =>
      have hschema : late.schemas[slot]? = p.context.schemas[slot]? :=
        hsame.2 slot (hknown m hm slot hslot')
      exact Context.tag_eq_of_schema hview hschema m.2
  have hnext : j.slot + j.arity = q.slotCount + p.arity := by rw [hslot, harity]
  obtain ⟨hinView, hscopeSlots⟩ := Scope.inView_of_resolve hscope
  have hbelow : late.Below (j.slot + j.arity) := hscopeSlots ▸ hinView
  have hearly : p.context.Below (j.slot + j.arity) := hnext ▸ p.context_below
  have hlast : ∀ {ctx : Context} {cond : Condition}, ctx.Below (j.slot + j.arity) →
      Condition.ofExpr .standard ctx d.expr = .ok cond → ∀ s ∈ cond.slots, s ≤ j.lastSlot := by
    intro ctx cond hctx hcond s hs
    have hlt := (Condition.orderly_ofExpr hctx d.expr).post hcond s hs
    rw [Join.lastSlot]
    omega
  rw [hdynamic]
  rcases map_eq_map_cases (Condition.ofExpr_resolve hrefines hagree) with
    ⟨f, hlate, hfirst⟩ | ⟨cond', cond, hlate, hfirst, hsame'⟩
  · rw [hlate, hfirst]
    simp
  · rw [hlate, hfirst]
    constructor
    · rintro ⟨given, hgiven, hsettles⟩
      cases hgiven
      exact ⟨cond', rfl, Settles.of_resolve_eq hsettles hsame' (hlast hbelow hlate)⟩
    · rintro ⟨given, hgiven, hsettles⟩
      cases hgiven
      exact ⟨cond, rfl, Settles.of_resolve_eq hsettles hsame'.symm (hlast hearly hfirst)⟩

/-- Behind the condition of the association, too, the one clause is bound as the other is. -/
theorem bindOn_written_iff_dynamic {q : Query} {i : Invocation} {aliases : OrderedMap Nat}
    {before : BoundSlots} {schemas : List (Option String)} {d : DynamicCondition}
    {inner inner' : Query → Except Failure BoundQuery} {found : FoundSource} {p : Placeholder}
    (hc : c.conditions = .standard) (parts : c.Parts q i) (hsource : j.source = parts.sized.source)
    (hslot : j.slot = q.slotCount) (harity : j.arity = parts.arity)
    (hd : args'.get? p = some (.dynamic d))
    (hfound : bindSource ⟨c, d.arguments⟩ inner before j = .ok found)
    (hfound' : bindSource ⟨c, args'⟩ inner' before j = .ok found)
    (hrefine : SchemasRefine parts.context.schemas schemas)
    (hsame : SameUnless (Query.FoundLate ⟨q.base, q.joins ++ [j], aliases⟩) parts.context.schemas
      schemas)
    (hsees : d.SeesAlike parts ⟨q.base, q.joins ++ [j], aliases⟩)
    (hknown : d.KnownEarly parts ⟨q.base, q.joins ++ [j], aliases⟩) (on : BoundCondition) :
    (∃ cond, Condition.ofExpr .standard parts.context d.expr = .ok cond ∧
      bindOn ⟨c, d.arguments⟩ ⟨aliases, schemas⟩
        (j.withClause ((OnClause.compiled cond).behind (j.source.naturalCondition? j.slot)))
        found.lateCondition = .ok on) ↔
    bindOn ⟨c, args'⟩ ⟨aliases, schemas⟩
      (j.withClause ((OnClause.deferred p none).behind (j.source.naturalCondition? j.slot)))
      found.lateCondition = .ok on := by
  have hnatural := parts.natural_le_lastSlot hsource hslot harity hfound
  have hwritten : ∀ cond, bindOn ⟨c, d.arguments⟩ ⟨aliases, schemas⟩
        (j.withClause ((OnClause.compiled cond).behind (j.source.naturalCondition? j.slot)))
        found.lateCondition = .ok on ↔ ∃ user,
      Settles ⟨c, d.arguments⟩ ⟨aliases, schemas⟩ j.lastSlot d.arguments cond user ∧
        on = user.behind (found.source.natural? j.slot) := by
    intro cond
    have hbare : (OnClause.compiled cond).Bare := fun _ _ he => nomatch he
    rw [bindOn_eq_ok_iff_user (j := j.withClause _) hfound rfl hbare hnatural]
    exact exists_congr fun user => and_congr_left fun _ => bindOn_compiled_iff
  have hsupplied : bindOn ⟨c, args'⟩ ⟨aliases, schemas⟩
        (j.withClause ((OnClause.deferred p none).behind (j.source.naturalCondition? j.slot)))
        found.lateCondition = .ok on ↔ ∃ user, (∃ cond,
      dynamicCondition ⟨c, args'⟩ ⟨aliases, schemas⟩ j d = .ok cond ∧
        Settles ⟨c, args'⟩ ⟨aliases, schemas⟩ j.lastSlot d.arguments cond user) ∧
        on = user.behind (found.source.natural? j.slot) := by
    have hbare : (OnClause.deferred p none).Bare := by
      rintro _ _ ⟨⟩
      rfl
    rw [bindOn_eq_ok_iff_user (j := j.withClause _) hfound' rfl hbare hnatural]
    exact exists_congr fun user => and_congr_left fun _ => bindOn_dynamic_iff hd
  rw [hsupplied]
  simp only [hwritten, ← settles_iff_of_seesAlike d.arguments args' hc parts hslot harity
    hrefine hsame hsees hknown]
  constructor
  · rintro ⟨cond, hcond, user, huser, he⟩
    exact ⟨user, ⟨cond, hcond, huser⟩, he⟩
  · rintro ⟨user, ⟨cond, hcond, huser⟩, he⟩
    exact ⟨cond, hcond, user, huser, he⟩

end Binder

/-! ## Joins with nothing else to supply -/

section

variable {q : Query} {c : Compiler} {i : Invocation} {before after : List (String × Expr)}
  {d : DynamicCondition} {args : Arguments} {p : Placeholder}

/-- But for the clause, nothing of the join is left to supply. -/
theorem Compiler.Parts.placeholders_apart_on {e : Expr}
    (parts : c.Parts q (i.withOn before after e)) (htarget : i.target.placeholders = [])
    (hoptions : Expr.pairPlaceholders (before ++ after) = []) :
    ∀ pl ∈ (parts.join.withClause (.compiled .truth)).placeholders, False := by
  intro pl hpl
  rcases parts.placeholders_with_clause hpl with h | h | ⟨entry, he, hkey, h⟩
  · change pl ∈ i.target.placeholders at h
    rw [htarget] at h
    cases h
  · cases h
  · have hmem : entry ∈ before ++ after := by
      rw [parts.entries_withOn, List.mem_append, List.mem_cons] at he
      rcases he with he | rfl | he
      · exact List.mem_append_left _ he
      · exact absurd rfl hkey
      · exact List.mem_append_right _ he
    rw [Expr.pairPlaceholders_eq_flatMap, List.flatMap_eq_nil_iff] at hoptions
    rw [hoptions entry hmem] at h
    cases h

variable (hq : q.Reachable) (hnone : q.placeholders = []) (hc : c.conditions = .standard)
  (hinner : ∀ inner ∈ i.target.queries, inner.Reachable) (htarget : i.target.placeholders = [])
  (hoptions : Expr.pairPlaceholders (before ++ after) = [])
  (hd : args.get? p = some (.dynamic d))
  (hsees : ∀ (parts : c.Parts q (i.withOn before after (.interpolate p))) (r : Query),
    c.join q (i.withOn before after (.interpolate p)) = .ok r →
      d.SeesAlike parts r ∧ d.KnownEarly parts r)

include hq hnone hc hinner htarget hoptions hd hsees

/-- In the place of the join, the condition is bound alike in both ways. -/
theorem Binder.bindOn_iff_of_run (parts : c.Parts q (i.withOn before after (.interpolate p)))
    {aliases : OrderedMap Nat}
    (haliases : Query.registerAlias q.aliases q.slotCount parts.joinAlias.name? = .ok aliases)
    {given : Arguments} {bounds : List BoundJoin} {t : BoundSlots} {found : FoundSource}
    (hrun : bindJoins ⟨c, given⟩ (insideAppended ⟨c, given⟩ q parts.join)
      ⟨aliases, [q.base.source.schema]⟩ q.joins = .ok (bounds, t))
    (hfound : bindSource ⟨c, given⟩ (insideAppended ⟨c, given⟩ q parts.join) t parts.join =
      .ok found) {on : BoundCondition} :
    (∃ cond, Condition.ofExpr .standard parts.context d.expr = .ok cond ∧
      bindOn ⟨c, d.arguments⟩
        ⟨t.aliases, t.schemas ++ found.source.slotSchemas parts.join.arity⟩
        (parts.join.withClause ((OnClause.compiled cond).behind
          (parts.sized.source.naturalCondition? q.slotCount))) found.lateCondition = .ok on) ↔
    bindOn ⟨c, args⟩ ⟨t.aliases, t.schemas ++ found.source.slotSchemas parts.join.arity⟩
      parts.join found.lateCondition = .ok on := by
  have hjoin := parts.join_eq_ok haliases
  have hr : Query.Reachable ⟨q.base, q.joins ++ [parts.join], aliases⟩ :=
    .join c (i.withOn before after (.interpolate p)) hq hinner hjoin
  obtain ⟨hsee, hknown⟩ := hsees parts _ hjoin
  have hrest := parts.placeholders_apart_on htarget hoptions
  have hsource : parts.join.source.placeholders = [] :=
    List.eq_nil_iff_forall_not_mem.mpr (Join.within_of_placeholders hrest).source
  have hfoundWith : ∀ given', bindSource ⟨c, given'⟩ (insideAppended ⟨c, given'⟩ q parts.join) t
      parts.join = .ok found := by
    intro given'
    have hagree := Arguments.agree_nothing given given'
    have hwithin : SameWithin (fun _ => False) (insideAppended ⟨c, given⟩ q parts.join)
        (insideAppended ⟨c, given'⟩ q parts.join) := bindWithin_congr hagree _
    refine (bindSource_congr_arguments hagree hwithin t fun pl hpl => ?_).trans hfound
    rw [hsource] at hpl
    cases hpl
  have hnames : t.aliases = aliases := by
    refine aliases_of_bindJoins (fun j hj pl hname => ?_) hrun
    rw [List.eq_nil_iff_forall_not_mem] at hnone
    have hwithin : j.Within (fun _ => False) :=
      Join.within_of_placeholders fun p hm => hnone p (Query.mem_placeholders.mpr ⟨j, hj, hm⟩)
    exact hwithin.joinAlias pl (hname ▸ List.mem_singleton.mpr rfl)
  have hdeferred : parts.join.withClause ((OnClause.deferred p none).behind
      (parts.join.source.naturalCondition? parts.join.slot)) = parts.join := by
    change parts.join.withClause ((OnClause.deferred p none).behind
      (parts.sized.source.naturalCondition? q.slotCount)) = parts.join
    rw [← parts.on_withOn hc rfl]
    rfl
  have hiff := bindOn_written_iff_dynamic hc parts rfl rfl rfl hd (hfoundWith _) (hfoundWith _)
    (schemasRefine_of_appended hr hq hrun hfound)
    (sameUnless_of_appended hr hq hnone hsource hrun hfound) hsee hknown on
  rw [hdeferred] at hiff
  rw [hnames]
  exact hiff

/-- With the condition in place of the placeholder, the query is bound to the same. -/
theorem Binder.bind_written_iff_dynamic
    (parts : c.Parts q (i.withOn before after (.interpolate p))) {aliases : OrderedMap Nat}
    (haliases : Query.registerAlias q.aliases q.slotCount parts.joinAlias.name? = .ok aliases)
    {bound : BoundQuery} :
    (∃ cond, Condition.ofExpr .standard parts.context d.expr = .ok cond ∧
      bind ⟨c, d.arguments⟩ ⟨q.base, q.joins ++ [parts.join.withClause
        ((OnClause.compiled cond).behind (parts.sized.source.naturalCondition? q.slotCount))],
        aliases⟩ = .ok bound) ↔
    bind ⟨c, args⟩ ⟨q.base, q.joins ++ [parts.join], aliases⟩ = .ok bound := by
  have hrest := parts.placeholders_apart_on htarget hoptions
  have hplaceholders : ∀ pl ∈ q.placeholders, False := by
    rw [hnone]
    exact fun _ h => nomatch h
  have hiff := @bindOn_iff_of_run q c i before after d args p hq hnone hc hinner htarget hoptions hd
    hsees parts aliases haliases
  constructor
  · rintro ⟨cond, hcond, hbind⟩
    let written : OnClause :=
      (OnClause.compiled cond).behind (parts.sized.source.naturalCondition? q.slotCount)
    change bind ⟨c, args⟩ ⟨q.base, q.joins ++ [(parts.join.withClause written).withClause parts.on],
      aliases⟩ = .ok bound
    have hwritten : ∀ pl ∈ ((parts.join.withClause written).withClause
        (.compiled .truth)).placeholders, False := hrest
    refine bind_exchange_last (Arguments.agree_nothing _ _) hplaceholders hwritten ?_ hbind
    intro bounds t found on hrun hfound hon
    exact (hiff hrun hfound).mp ⟨cond, hcond, hon⟩
  · intro hbind
    obtain ⟨bounds, t, last, u, hrun, hlast, -⟩ := bind_append_eq_ok_iff.mp hbind
    obtain ⟨bindings, aliasName, -, -⟩ := exists_parts_of_bindJoin hlast
    obtain ⟨cond, hcond, -⟩ := (hiff hrun bindings.found_eq).mpr bindings.on_eq
    refine ⟨cond, hcond, ?_⟩
    refine bind_exchange_last (Arguments.agree_nothing _ _) hplaceholders hrest ?_ hbind
    intro bounds t found on hrun hfound hon
    obtain ⟨cond', hcond', hon'⟩ := (hiff hrun hfound).mpr hon
    cases hcond.symm.trans hcond'
    exact hon'

end

/-- A dynamic condition binds a join to what the join is bound to with the condition in its place
and the values of the dynamic condition as arguments, the condition of an association included; the
one binds exactly when the other does. The other arguments have no part in it, nor have the settings
as long as they take the condition and the placeholder alike. -/
theorem Query.Reachable.dynamic_iff_written {q : Query} (hq : q.Reachable)
    (hnone : q.placeholders = []) {c : Compiler} (hc : c.conditions = .standard) {i : Invocation}
    {before after : List (String × Expr)} (hinner : ∀ inner ∈ i.target.queries, inner.Reachable)
    (htarget : i.target.placeholders = []) (hoptions : Expr.pairPlaceholders (before ++ after) = [])
    {d : DynamicCondition} (hexpr : d.expr.IsCondition) {args : Arguments} {p : Placeholder}
    (hd : args.get? p = some (.dynamic d))
    (halike : c.config.TakesAlike "on" d.expr (.interpolate p))
    (hsees : ∀ (parts : c.Parts q (i.withOn before after (.interpolate p))) (r : Query),
      c.join q (i.withOn before after (.interpolate p)) = .ok r →
        d.SeesAlike parts r ∧ d.KnownEarly parts r) (bound : BoundQuery) :
    q.joinAndBind (i.withOn before after d.expr) d.arguments c c = .ok bound ↔
      q.joinAndBind (i.withOn before after (.interpolate p)) args c c = .ok bound := by
  have hiff := @Binder.bind_written_iff_dynamic q c i before after d args p hq hnone hc hinner
    htarget hoptions hd hsees
  constructor
  · intro h
    obtain ⟨written, aliases, haliases, hbind⟩ := joinAndBind_eq_ok_iff.mp h
    obtain ⟨clause, hclause, -⟩ := Compiler.onClause_eq_ok_iff.mp written.on_eq
    rw [written.on?_withOn, hc] at hclause
    have hon := written.on_withOn hc hclause
    rw [hexpr.ofExpr?] at hclause
    obtain ⟨cond, hcond, rfl⟩ := map_eq_ok.mp hclause
    have hread : OnClause.ofExpr? .standard written.context q.slotCount (some (.interpolate p)) =
      .ok (.deferred p none) := rfl
    obtain ⟨parts, hctx, hsized, hjoin⟩ := written.exchangeOn hc halike hread
    have hname : parts.joinAlias = written.joinAlias := congrArg Join.joinAlias hjoin
    rw [← hname] at haliases
    refine joinAndBind_eq_ok_iff.mpr ⟨parts, aliases, haliases, ?_⟩
    refine (hiff parts haliases).mp ⟨cond, hctx ▸ hcond, ?_⟩
    rw [hsized, ← hon, hjoin]
    exact hbind
  · intro h
    obtain ⟨parts, aliases, haliases, hbind⟩ := joinAndBind_eq_ok_iff.mp h
    obtain ⟨cond, hcond, hbind⟩ := (hiff parts haliases).mpr hbind
    have hread : OnClause.ofExpr? .standard parts.context q.slotCount (some d.expr) =
        .ok (.compiled cond) := by
      rw [hexpr.ofExpr?, hcond]
      rfl
    obtain ⟨written, -, -, hjoin⟩ := parts.exchangeOn hc halike.symm hread
    have hname : written.joinAlias = parts.joinAlias := congrArg Join.joinAlias hjoin
    rw [← hname] at haliases
    refine joinAndBind_eq_ok_iff.mpr ⟨written, aliases, haliases, ?_⟩
    rw [hjoin]
    exact hbind

namespace Sample

/-- `c.post_id == p.id and c.score > ^0` with 3 for its own `^0`. -/
def scoreAboveThree : DynamicCondition where
  binding := [.var "p", .var "c"]
  expr := .binary .and (.binary .eq (.field "c" "post_id") (.field "p" "id"))
    (.binary .gt (.field "c" "score") (.interpolate (.positional 0)))
  values := [.integer 3]

/-- The condition for `^d`, beside other arguments. -/
def supplied (d : DynamicCondition) : Arguments :=
  .named (.ofList [("0", .value .undefined), ("d", .dynamic d)])

def commentsOn (e : Expr) : Invocation := comments.withOn [] [] e

def commentsParts : binder.Parts posts (commentsOn (.interpolate (.named "d"))) where
  qualifier := .left
  options := ⟨.ofList [("on", .interpolate (.named "d"))]⟩
  scope := ⟨.ofList [("p", 0)], 1⟩
  vars := .single (some "c")
  target := .schema "Comment"
  sized := { source := .table { schema := some "Comment" } }
  joined := ⟨.ofList [("p", 0), ("c", 1)], 2⟩
  on := .deferred (.named "d") none
  qualifier_eq := rfl
  options_eq := rfl
  scope_eq := rfl
  target_eq := rfl
  fresh := rfl
  sized_eq := rfl
  arity_ok := rfl
  joined_eq := rfl
  on_eq := rfl
  last_ok := rfl

theorem seen_scoreAboveThree {c : Compiler} {i : Invocation} (parts : c.Parts posts i)
    (hjoined : parts.joined = ⟨.ofList [("p", 0), ("c", 1)], 2⟩) {r : Query}
    (hcount : r.slotCount = 2) (haliases : r.aliases = .empty) :
    scoreAboveThree.SeesAlike parts r ∧ scoreAboveThree.KnownEarly parts r := by
  refine ⟨⟨⟨.ofList [("p", 0), ("c", 1)], 2⟩, ?_, fun x _ => ?_⟩, fun m hm => nomatch hm⟩
  · rw [hcount, haliases]
    rfl
  · rw [hjoined]

/-- Supplied or written, the condition asks for the comments of a post above a score of 3. -/
theorem dynamic_iff_written_comments :
    posts.Reachable ∧ posts.placeholders = [] ∧ binder.conditions = .standard ∧
      scoreAboveThree.expr.IsCondition ∧
      binder.config.TakesAlike "on" scoreAboveThree.expr (.interpolate (.named "d")) ∧
      posts.joinAndBind (commentsOn scoreAboveThree.expr) scoreAboveThree.arguments binder binder =
        .ok ⟨posts.base, [boundComments 1 3], .empty⟩ ∧
      posts.joinAndBind (commentsOn (.interpolate (.named "d"))) (supplied scoreAboveThree) binder
        binder = .ok ⟨posts.base, [boundComments 1 3], .empty⟩ := by
  have hq : posts.Reachable := .ofTableRef _
  have hexpr : scoreAboveThree.expr.IsCondition := Expr.isCondition_binary _ _ _
  have halike : binder.config.TakesAlike "on" scoreAboveThree.expr (.interpolate (.named "d")) :=
    fun _ h => nomatch h
  have hwritten : posts.joinAndBind (commentsOn scoreAboveThree.expr) scoreAboveThree.arguments
      binder binder = .ok ⟨posts.base, [boundComments 1 3], .empty⟩ := rfl
  have hsees : ∀ (parts : binder.Parts posts (commentsOn (.interpolate (.named "d")))) (r : Query),
      binder.join posts (commentsOn (.interpolate (.named "d"))) = .ok r →
        scoreAboveThree.SeesAlike parts r ∧ scoreAboveThree.KnownEarly parts r := by
    intro parts r hr
    cases parts.unique commentsParts
    cases hr
    exact seen_scoreAboveThree _ rfl rfl rfl
  have hinner : ∀ inner ∈ comments.target.queries, inner.Reachable := fun _ h => nomatch h
  have hgiven : (supplied scoreAboveThree).get? (.named "d") =
    some (.dynamic scoreAboveThree) := rfl
  have hsupplied := (hq.dynamic_iff_written rfl rfl hinner rfl rfl hexpr hgiven halike hsees _).mp
    hwritten
  exact ⟨hq, rfl, rfl, hexpr, halike, hwritten, hsupplied⟩

/-- Specifies the condition once more, and takes nothing but a placeholder for it. -/
def deferring : Compiler :=
  { binder with config := { options := [{ name := "on", interpolated := true }] } }

def deferringParts : deferring.Parts posts (commentsOn (.interpolate (.named "d"))) :=
  { commentsParts with qualifier_eq := rfl, options_eq := rfl }

/-- Knows that a post has comments, which have an integer score. -/
def forum : Compiler where
  view := fun name =>
    if name = "Post" then
      some (Schema.hasMany { name := "Post", source := "posts" } "comments" "Comment" "post_id")
    else if name = "Comment" then
      some { name := "Comment", source := "comments", fields := .ofList [("score", .integer)] }
    else none

/-- `join(query, :inner, [p], c in assoc(p, :comments))`. -/
def itsComments : Invocation where
  qualifier := .atom "inner"
  binding := .list [.var "p"]
  target := .binary .mem (.var "c") (.call "assoc" [.var "p", .atom "comments"])

/-- The association was built on a table, of which nothing is known, and absorbed to its schema. -/
def postsWithItsComments : Query where
  base := { source := { schema := some "Post" } }
  joins := [{
    qualifier := .inner
    source := .association ⟨0, .literal "comments", none⟩
    on := .compiled .truth
    joinAlias := .inferred "comments"
    tablePrefix := none
    hints := none
    extensions := .empty
    slot := 1
    arity := 1
    schemas := [none] }]
  aliases := .ofList [("comments", 1)]

theorem reachable_postsWithItsComments : postsWithItsComments.Reachable :=
  .absorb (.ofTableRef { schema := some "Post" })
    (.join forum itsComments (.ofTableRef { table := some "posts" }) (fun _ h => nomatch h) rfl) rfl

/-- `c.score in ^0`, with a text for its `^0`. -/
def scoreInText : DynamicCondition where
  binding := [.var "p", .var "c"]
  expr := .binary .mem (.field "c" "score") (.interpolate (.positional 0))
  values := [.string "x"]

/-- `join(query, :inner, [p, c], t in "tags", on: e)`. -/
def tagsOn (e : Expr) : Invocation :=
  Invocation.withOn {
    qualifier := .atom "inner"
    binding := .list [.var "p", .var "c"]
    target := .binary .mem (.var "t") (.literal (.string "tags")) } [] [] e

def tagsParts : forum.Parts postsWithItsComments (tagsOn (.interpolate (.named "d"))) where
  qualifier := .inner
  options := ⟨.ofList [("on", .interpolate (.named "d"))]⟩
  scope := ⟨.ofList [("p", 0), ("c", 1)], 2⟩
  vars := .single (some "t")
  target := .literal (.string "tags")
  sized := { source := .table { table := some "tags" } }
  joined := ⟨.ofList [("p", 0), ("c", 1), ("t", 2)], 3⟩
  on := .deferred (.named "d") none
  qualifier_eq := rfl
  options_eq := rfl
  scope_eq := rfl
  target_eq := rfl
  fresh := rfl
  sized_eq := rfl
  arity_ok := rfl
  joined_eq := rfl
  on_eq := rfl
  last_ok := rfl

/-- The schema of the comments is found by binding. Written, the condition asks nothing of `^0`,
which has no type where it is compiled; supplied, it is compiled when the score is known to be an
integer, and wants an array of integers. And settings that take a placeholder alone for a condition
refuse the one that is written, while the one that is supplied never meets them. -/
theorem dynamic_unlike_written :
    (postsWithItsComments.Reachable ∧ postsWithItsComments.placeholders = [] ∧
      forum.conditions = .standard ∧
      forum.config.TakesAlike "on" scoreInText.expr (.interpolate (.named "d")) ∧
      (tagsOn (.atom "none")).target.placeholders = [] ∧ scoreInText.expr.IsCondition ∧
      scoreInText.expr.placeholders = [.positional 0] ∧
      (∀ (parts : forum.Parts postsWithItsComments (tagsOn (.interpolate (.named "d"))))
        (r : Query), forum.join postsWithItsComments (tagsOn (.interpolate (.named "d"))) = .ok r →
          scoreInText.SeesAlike parts r) ∧
      ¬ ∀ bound,
        postsWithItsComments.joinAndBind (tagsOn scoreInText.expr) scoreInText.arguments forum
            forum = .ok bound ↔
          postsWithItsComments.joinAndBind (tagsOn (.interpolate (.named "d")))
            (supplied scoreInText) forum forum = .ok bound) ∧
    posts.Reachable ∧ posts.placeholders = [] ∧ deferring.conditions = .standard ∧
      (commentsOn (.atom "none")).target.placeholders = [] ∧ scoreAboveThree.expr.IsCondition ∧
      scoreAboveThree.expr.placeholders = [.positional 0] ∧
      (∀ (parts : deferring.Parts posts (commentsOn (.interpolate (.named "d")))) (r : Query),
        deferring.join posts (commentsOn (.interpolate (.named "d"))) = .ok r →
          scoreAboveThree.SeesAlike parts r ∧ scoreAboveThree.KnownEarly parts r) ∧
      ¬ ∀ bound,
        posts.joinAndBind (commentsOn scoreAboveThree.expr) scoreAboveThree.arguments deferring
            deferring = .ok bound ↔
          posts.joinAndBind (commentsOn (.interpolate (.named "d"))) (supplied scoreAboveThree)
            deferring deferring = .ok bound := by
  have hsees : ∀ (parts : forum.Parts postsWithItsComments (tagsOn (.interpolate (.named "d"))))
      (r : Query), forum.join postsWithItsComments (tagsOn (.interpolate (.named "d"))) = .ok r →
        scoreInText.SeesAlike parts r := by
    intro parts r hr
    cases parts.unique tagsParts
    cases hr
    refine ⟨_, rfl, fun x hx => ?_⟩
    have hname : x = "c" := by simpa [scoreInText, Expr.vars] using hx
    rw [hname]
    rfl
  have hwritten : ∃ bound, postsWithItsComments.joinAndBind (tagsOn scoreInText.expr)
      scoreInText.arguments forum forum = .ok bound := ⟨_, rfl⟩
  have hsupplied : ∃ f, postsWithItsComments.joinAndBind (tagsOn (.interpolate (.named "d")))
      (supplied scoreInText) forum forum = .error f := ⟨_, rfl⟩
  have hseen : ∀ (parts : deferring.Parts posts (commentsOn (.interpolate (.named "d"))))
      (r : Query), deferring.join posts (commentsOn (.interpolate (.named "d"))) = .ok r →
        scoreAboveThree.SeesAlike parts r ∧ scoreAboveThree.KnownEarly parts r := by
    intro parts r hr
    cases parts.unique deferringParts
    cases hr
    exact seen_scoreAboveThree _ rfl rfl rfl
  have hrefused : ∃ f, posts.joinAndBind (commentsOn scoreAboveThree.expr)
      scoreAboveThree.arguments deferring deferring = .error f := ⟨_, rfl⟩
  have hdeferred : ∃ bound, posts.joinAndBind (commentsOn (.interpolate (.named "d")))
      (supplied scoreAboveThree) deferring deferring = .ok bound := ⟨_, rfl⟩
  refine ⟨⟨reachable_postsWithItsComments, rfl, rfl, (fun _ h => nomatch h), rfl,
    Expr.isCondition_binary _ _ _, rfl, hsees, ?_⟩, .ofTableRef _, rfl, rfl, rfl,
    Expr.isCondition_binary _ _ _, rfl, hseen, ?_⟩
  · intro h
    obtain ⟨bound, hbound⟩ := hwritten
    obtain ⟨f, hf⟩ := hsupplied
    cases hf.symm.trans ((h bound).mp hbound)
  · intro h
    obtain ⟨f, hf⟩ := hrefused
    obtain ⟨bound, hbound⟩ := hdeferred
    cases hf.symm.trans ((h bound).mpr hbound)

end Sample

end StagedJoin
