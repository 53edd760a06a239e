import StagedJoin.Proofs.Bound.Appended
import StagedJoin.Proofs.Bound.Arguments
import StagedJoin.Proofs.Bound.Layout
import StagedJoin.Proofs.Condition.Resolution

/-!
Clauses apart from the associations of their joins. A join's condition is bound exactly
when the clause that was given is, which goes in front of nothing and behind the
condition of the association; and of the types in a clause only what they resolve to
counts.
-/
namespace StagedJoin

/-- Where schemas are only added, types are only found. -/
theorem Context.refines_of_schemas {early late : Context} (hview : late.view = early.view)
    (h : SchemasRefine early.schemas late.schemas) : early.Refines late := by
  intro slot name
  cases hschema : early.schema? slot with
  | none =>
    have htag : early.tag slot name = .field slot name := by rw [tag, hschema]; rfl
    rw [htag]
    rfl
  | some schema =>
    have hlate : late.schema? slot = some schema := h.join_getElem? hschema
    have htag : early.tag slot name = late.tag slot name := by
      rw [tag, tag, hschema, hlate, hview]
    rw [htag, late.resolve_tag]

namespace Binder

variable {b : Binder} {inner : Query → Except Failure BoundQuery} {slots before : BoundSlots}
  {j : Join} {clause : OnClause}

/-! ## Types resolved now or before -/

/-- A parameter is bound alike whether its type has been resolved before or not. -/
theorem bindParam_resolve {ctx : Context} {args : Arguments} {p : Param} {r : Value × TypeTag} :
    bindParam ctx args (p.resolve ctx) = .ok r ↔ bindParam ctx args p = .ok r := by
  simp only [bindParam_eq_ok_iff, paramValue_eq_ok_iff, plainValue_eq_ok_iff, Param.resolve,
    ctx.resolve_resolve]

theorem bindParams_resolve {ctx : Context} {args : Arguments} {ps : List Param}
    {rs : List (Value × TypeTag)} :
    (ps.map (Param.resolve ctx)).mapM (bindParam ctx args) = .ok rs ↔
      ps.mapM (bindParam ctx args) = .ok rs := by
  rw [mapM_eq_ok_iff, mapM_eq_ok_iff, List.forall₂_map_left_iff]
  simp only [bindParam_resolve]

/-- Conditions that resolve to the same are bound to the same. -/
theorem Settles.of_resolve_eq {last : Nat} {args : Arguments} {c c' : Condition}
    {on : BoundCondition} (h : b.Settles slots last args c on)
    (hsame : c'.resolve (b.context slots) = c.resolve (b.context slots))
    (hlast : ∀ s ∈ c'.slots, s ≤ last) : b.Settles slots last args c' on := by
  obtain ⟨-, params, hparams, rfl⟩ := h
  have hterm : c'.term.mapTags (b.context slots).resolve =
      c.term.mapTags (b.context slots).resolve := congrArg Condition.term hsame
  have hmap : c'.params.map (Param.resolve (b.context slots)) =
      c.params.map (Param.resolve (b.context slots)) := congrArg Condition.params hsame
  refine ⟨hlast, params, ?_, by rw [hterm]⟩
  rw [← bindParams_resolve, hmap, bindParams_resolve]
  exact hparams

/-! ## Clauses behind associations -/

/-- What settles behind the condition of an association settles with it in front. -/
theorem Settles.behind {source : BoundSource} {slot last : Nat} {args : Arguments}
    {c : Condition} {user : BoundCondition} (h : b.Settles slots last args c user)
    (hnatural : ∀ natural ∈ source.natural? slot, ∀ s ∈ natural.slots, s ≤ last) :
    b.Settles slots last args (conjoin (source.natural? slot) c)
      (user.behind (source.natural? slot)) := by
  cases source with
  | association owner r =>
    have hslots : ∀ s ∈ (r.condition slot owner).slots, s ≤ last := hnatural _ rfl
    change b.Settles slots last args ((r.condition slot owner).and c)
      (user.behind (some (r.condition slot owner)))
    rw [r.condition_and, BoundCondition.behind, h.isTruth_eq]
    by_cases hc : c.isTruth
    · rw [if_pos hc, if_pos hc]
      exact ⟨hslots, [], rfl, rfl⟩
    · rw [if_neg hc, if_neg hc]
      obtain ⟨hlast, params, hparams, rfl⟩ := h
      refine ⟨?_, params, hparams, rfl⟩
      intro s hs
      simp only [Condition.slots, Term.slots, List.mem_append] at hs hslots hlast
      rcases hs with (hs | hs) | hs
      · exact hslots s (.inl hs)
      · exact hlast s (.inl hs)
      · exact hlast s (.inr hs)
  | _ => exact h

/-- The condition of an association speaks of the slots of its join and of the owner. -/
theorem natural_le_lastSlot {found : FoundSource} (hslot : j.slot ≤ j.lastSlot)
    (howner : ∀ a, j.source = .association a → a.owner ≤ j.lastSlot)
    (h : b.bindSource inner before j = .ok found) :
    ∀ natural ∈ found.source.natural? j.slot, ∀ s ∈ natural.slots, s ≤ j.lastSlot := by
  intro natural hn s hs
  cases hf : found.source with
  | association owner r =>
    rw [hf] at hn
    cases hn
    obtain ⟨a, ha, rfl⟩ := (bindSource_eq_ok_iff.mp h).owner_eq hf
    have hle := howner a ha
    simp only [ResolvedAssociation.condition, Term.eq, Condition.slots, Term.slots,
      List.flatMap_nil, List.append_nil, List.mem_append, List.mem_singleton] at hs
    rcases hs with rfl | rfl
    · exact hslot
    · exact hle
  | _ =>
    rw [hf] at hn
    cases hn

/-- The condition of a clause is put behind the condition that is in front of the clause. -/
theorem onCondition_behind {early : Option Condition} (hon : j.on = clause.behind early)
    (hclause : clause.Bare) {given : Condition} {args : Arguments}
    (h : b.onCondition slots (j.withClause clause) = .ok (given, args)) :
    b.onCondition slots j = .ok (conjoin early given, args) := by
  rw [onCondition_eq] at h ⊢
  rw [hon]
  cases clause with
  | compiled c =>
    cases h
    cases early <;> rfl
  | deferred p previous =>
    cases hclause p previous rfl
    obtain ⟨⟨c, args'⟩, hsupplied, he⟩ := map_eq_ok.mp h
    cases he
    have hsame : b.suppliedCondition slots j p = .ok (c, args') := hsupplied
    cases early <;> exact map_eq_ok.mpr ⟨_, hsame, rfl⟩

/-- The condition of a join is what the clause that was given for it is bound to, behind the
condition of its association; the one is bound exactly when the other is. -/
theorem bindOn_eq_ok_iff_user {found : FoundSource}
    (hfound : b.bindSource inner before j = .ok found)
    (hon : j.on = clause.behind (j.source.naturalCondition? j.slot)) (hclause : clause.Bare)
    (hnatural : ∀ natural ∈ found.source.natural? j.slot, ∀ s ∈ natural.slots, s ≤ j.lastSlot)
    {on : BoundCondition} :
    b.bindOn slots j found.lateCondition = .ok on ↔
      ∃ user, b.bindOn slots (j.withClause clause) none = .ok user ∧
        on = user.behind (found.source.natural? j.slot) := by
  refine ⟨exists_user_of_bindOn hfound hon hclause, ?_⟩
  rintro ⟨user, huser, rfl⟩
  obtain ⟨given, args, hgiven, hsettles⟩ := bindOn_eq_ok_iff_settles.mp huser
  refine bindOn_eq_ok_iff_settles.mpr ⟨_, args, onCondition_behind hon hclause hgiven, ?_⟩
  rw [(bindSource_eq_ok_iff.mp hfound).conjoin_conjoin]
  exact Settles.behind hsettles hnatural

theorem bindOn_compiled_iff {cond : Condition} {user : BoundCondition} :
    b.bindOn slots (j.withClause (.compiled cond)) none = .ok user ↔
      b.Settles slots j.lastSlot b.arguments cond user := by
  rw [bindOn_eq_ok_iff_settles, onCondition_eq]
  constructor
  · rintro ⟨c, args, hc, hsettles⟩
    cases hc
    exact hsettles
  · exact fun h => ⟨cond, b.arguments, rfl, h⟩

/-! ## Exchanging clauses -/

variable {A : Placeholder → Prop} {c : Compiler} {args args' : Arguments}
  {inner' : Query → Except Failure BoundQuery} {on' : OnClause}

/-- A join with another clause that is bound to the same is itself bound to the same. -/
theorem bindJoin_exchange (h : args.Agree A args') (hinner : SameWithin A inner inner')
    (hp : ∀ p ∈ (j.withClause (.compiled .truth)).placeholders, A p)
    (hon : ∀ found on, bindSource ⟨c, args⟩ inner slots j = .ok found →
      bindOn ⟨c, args⟩ ⟨slots.aliases, slots.schemas ++ found.source.slotSchemas j.arity⟩ j
        found.lateCondition = .ok on →
      bindOn ⟨c, args'⟩ ⟨slots.aliases, slots.schemas ++ found.source.slotSchemas j.arity⟩
        (j.withClause on') found.lateCondition = .ok on)
    {r : BoundJoin × BoundSlots} (hr : bindJoin ⟨c, args⟩ inner slots j = .ok r) :
    bindJoin ⟨c, args'⟩ inner' slots (j.withClause on') = .ok r := by
  obtain ⟨bound, after⟩ := r
  obtain ⟨parts, aliasName, halias, rfl⟩ := exists_parts_of_bindJoin hr
  obtain ⟨hsource, -, hname, hpre, hhints, hextensions⟩ := Join.within_of_placeholders hp
  have hentries : j.extensions.traverse (bindExtension ⟨c, args'⟩) =
      j.extensions.traverse (bindExtension ⟨c, args⟩) :=
    OrderedMap.traverse_congr fun e he => bindExtension_congr h e.1 (hextensions e he)
  have hfound := (bindSource_congr_arguments h hinner slots hsource).trans parts.found_eq
  obtain ⟨parts', hjoin, hgrown⟩ : ∃ parts' : Parts ⟨c, args'⟩ inner' slots (j.withClause on'),
      parts'.join = parts.join ∧ parts'.grown = ⟨slots.aliases, parts.grown.schemas⟩ :=
    parts.exists_exchange rfl rfl rfl rfl hfound rfl (hon _ _ parts.found_eq parts.on_eq)
      (bindPrefix_congr h hpre) (bindHints_congr h hhints) hentries
  have halias' : bindAlias ⟨c, args'⟩ parts'.grown (j.withClause on') = .ok (aliasName, after) := by
    rw [hgrown]
    exact (bindAlias_congr h hname).trans halias
  rw [parts'.bindJoin_eq, halias', hjoin]
  rfl

/-- The last join of a query may be given another clause that is bound to the same. -/
theorem bind_exchange_last {q : Query} {aliases : OrderedMap Nat} (h : args.Agree A args')
    (hq : ∀ p ∈ q.placeholders, A p)
    (hp : ∀ p ∈ (j.withClause (.compiled .truth)).placeholders, A p)
    (hon : ∀ bounds t found on,
      bindJoins ⟨c, args⟩ (insideAppended ⟨c, args⟩ q j) ⟨aliases, [q.base.source.schema]⟩
        q.joins = .ok (bounds, t) →
      bindSource ⟨c, args⟩ (insideAppended ⟨c, args⟩ q j) t j = .ok found →
      bindOn ⟨c, args⟩ ⟨t.aliases, t.schemas ++ found.source.slotSchemas j.arity⟩ j
        found.lateCondition = .ok on →
      bindOn ⟨c, args'⟩ ⟨t.aliases, t.schemas ++ found.source.slotSchemas j.arity⟩
        (j.withClause on') found.lateCondition = .ok on)
    {bound : BoundQuery}
    (hbound : bind ⟨c, args⟩ ⟨q.base, q.joins ++ [j], aliases⟩ = .ok bound) :
    bind ⟨c, args'⟩ ⟨q.base, q.joins ++ [j.withClause on'], aliases⟩ = .ok bound := by
  obtain ⟨bounds, t, last, u, hrun, hlast, rfl⟩ := bind_append_eq_ok_iff.mp hbound
  have hinner : SameWithin A (insideAppended ⟨c, args⟩ q j)
      (insideAppended ⟨c, args'⟩ q (j.withClause on')) := bindWithin_congr h _
  refine bind_append_eq_ok_iff.mpr ⟨bounds, t, last, u, ?_, ?_, rfl⟩
  · rw [bindJoins_congr h hinner fun j hj p hp => hq p (Query.mem_placeholders.mpr ⟨j, hj, hp⟩)]
    exact hrun
  · exact bindJoin_exchange h hinner hp (hon bounds t · · hrun) hlast

end Binder

end StagedJoin
