import StagedJoin.Proofs.Bound.Deferral

/-!
Queries with a join of which parts are left to supply. What is supplied may stand for a
table, a subquery, an association, a name, a prefix, hints or another option, any of them
at once; the query is bound as it is with those parts given, to the same joins and names,
or it is bound neither way. Only the order in which names are registered may differ, for
one that is supplied comes behind those that other joins are supplied with.
-/
namespace StagedJoin

/-- The same base and joins, and the same names for the same slots, in whatever order. -/
structure BoundQuery.SameAs (a b : BoundQuery) : Prop where
  base_eq : b.base = a.base
  joins_eq : b.joins = a.joins
  get?_aliases : ∀ name, b.aliases.get? name = a.aliases.get? name

namespace Binder

variable {A : Placeholder → Prop} {c : Compiler} {args args' : Arguments} {name? : Option String}
  {a a' : JoinAlias} {names early late : OrderedMap Nat} {slot : Nat}

theorem registerAlias_supplied (hname : a.Defers args name? a')
    (h : Query.registerAlias names slot a.name? = .ok early) :
    ∃ late, Query.registerAlias names slot a'.name? = .ok late ∧
      ∀ schemas, BoundSlots.NamedEarly name? slot ⟨late, schemas⟩ ⟨early, schemas⟩ := by
  rcases hname.eq_or_supplied with ⟨rfl, rfl⟩ | ⟨name, p, rfl, rfl, rfl, -⟩
  · exact ⟨early, h, fun schemas => .refl slot _⟩
  · obtain ⟨hfree, rfl⟩ := Query.registerAlias_eq_ok_iff.mp h
    exact ⟨names, rfl, fun schemas => .of_insert (hfree name rfl) slot schemas⟩

theorem registerAlias_given (hname : a.Defers args name? a')
    (h : Query.registerAlias names slot a'.name? = .ok late)
    (hfree : ∀ name ∈ name?, late.get? name = none) :
    ∃ early, Query.registerAlias names slot a.name? = .ok early ∧
      ∀ schemas, BoundSlots.NamedEarly name? slot ⟨late, schemas⟩ ⟨early, schemas⟩ := by
  rcases hname.eq_or_supplied with ⟨rfl, rfl⟩ | ⟨name, p, rfl, rfl, rfl, -⟩
  · exact ⟨late, h, fun schemas => .refl slot _⟩
  · cases h
    refine ⟨names.insert name slot, Query.registerAlias_eq_ok_iff.mpr ⟨hfree, rfl⟩, ?_⟩
    exact fun schemas => .of_insert (hfree name rfl) slot schemas

variable {q : Query} {i i' : Invocation} {p : c.Parts q i} {p' : c.Parts q i'}
  {inner : Query → Except Failure BoundQuery} {t : BoundSlots}

theorem free_of_bindJoin (hname : p.joinAlias.Defers args name? p'.joinAlias) {bound : BoundJoin}
    {u : BoundSlots} (h : bindJoin ⟨c, args⟩ inner t p'.join = .ok (bound, u)) :
    ∀ name ∈ name?, t.aliases.get? name = none := by
  obtain ⟨parts, aliasName, hbind, -⟩ := exists_parts_of_bindJoin h
  have hname : p.join.joinAlias.Defers args name? p'.join.joinAlias := hname
  have hfree : ∀ name ∈ name?, parts.grown.aliases.get? name = none :=
    free_of_bindAlias hname hbind
  exact hfree

/-- A query with a join that is supplied with a name is bound only if that name is free. -/
theorem free_of_bind (hname : p.joinAlias.Defers args name? p'.joinAlias) {bound : BoundQuery}
    (h : bind ⟨c, args⟩ ⟨q.base, q.joins ++ [p'.join], late⟩ = .ok bound) :
    ∀ name ∈ name?, late.get? name = none := by
  obtain ⟨bounds, t, last, u, hrun, hlast, -⟩ := bind_append_eq_ok_iff.mp h
  intro name hn
  exact (extends_of_bindJoins hrun).get?_eq_none (free_of_bindJoin hname hlast name hn)

/-- A query with a join that is supplied with an association is bound only if there is one. -/
theorem not_missing_of_bind (hq : q.Reachable) {bound : BoundQuery}
    (h : bind ⟨c, args⟩ ⟨q.base, q.joins ++ [p'.join], late⟩ = .ok bound) :
    ¬ p'.sized.source.Missing args p'.sourceContext := by
  intro hmissing
  obtain ⟨bounds, t, last, u, hrun, hlast, -⟩ := bind_append_eq_ok_iff.mp h
  obtain ⟨parts, -, -, -⟩ := exists_parts_of_bindJoin hlast
  have hsource : p'.join.source.Missing args p'.sourceContext := hmissing
  have hseen : ∀ k schema, p'.sourceContext.schema? k = some schema →
      t.schemas[k]?.join = some schema :=
    fun k schema hk => (schemasRefine_of_bindJoins hq hrun).join_getElem? hk
  obtain ⟨f, hf⟩ := exists_error_of_missing rfl hseen hsource
  cases parts.found_eq.symm.trans hf

/-- With the same joins before them, the two joins lead to the same bound query. -/
theorem bind_of_defers (h : args.Agree A args') (hc : c.conditions = .standard) (hq : q.Reachable)
    (hinner : ∀ sub ∈ i.target.queries, sub.Reachable) (hon : i.HasStaticOn)
    (hA : ∀ pl ∈ q.placeholders, A pl) (hi : ∀ pl ∈ i.placeholders, A pl) (hd : p.Defers args' p')
    (hname : p.joinAlias.Defers args' name? p'.joinAlias)
    (haliases : Query.registerAlias q.aliases q.slotCount p.joinAlias.name? = .ok early)
    (hnamed : ∀ schemas, BoundSlots.NamedEarly name? q.slotCount ⟨late, schemas⟩ ⟨early, schemas⟩) :
    (∀ bound, bind ⟨c, args⟩ ⟨q.base, q.joins ++ [p.join], early⟩ = .ok bound →
        ∃ bound', bind ⟨c, args'⟩ ⟨q.base, q.joins ++ [p'.join], late⟩ = .ok bound' ∧
          bound.SameAs bound') ∧
      ∀ bound', bind ⟨c, args'⟩ ⟨q.base, q.joins ++ [p'.join], late⟩ = .ok bound' →
        ∃ bound, bind ⟨c, args⟩ ⟨q.base, q.joins ++ [p.join], early⟩ = .ok bound ∧
          bound.SameAs bound' := by
  have hr : Query.Reachable ⟨q.base, q.joins ++ [p.join], early⟩ :=
    .join c i hq hinner (p.join_eq_ok haliases)
  have hslots := hq.layout.contiguous.slot_add_arity_le
  have hinside : insideAppended ⟨c, args'⟩ q p'.join = insideAppended ⟨c, args'⟩ q p.join :=
    congrArg (fun arity => bindWithin ⟨c, args'⟩ (Join.totalArity q.joins + arity)) hd.arity_eq
  have hwithin : SameWithin A (insideAppended ⟨c, args⟩ q p.join)
      (insideAppended ⟨c, args'⟩ q p'.join) := hinside ▸ bindWithin_congr h _
  have hjoins : ∀ slots, bindJoins ⟨c, args'⟩ (insideAppended ⟨c, args'⟩ q p'.join) slots q.joins =
      bindJoins ⟨c, args⟩ (insideAppended ⟨c, args⟩ q p.join) slots q.joins := fun slots =>
    bindJoins_congr h hwithin fun j hj pl hm => hA pl (Query.mem_placeholders.mpr ⟨j, hj, hm⟩)
  -- the last join, behind joins that were bound with the name given early and late
  have hsteps := fun {bounds : List BoundJoin} {t t' : BoundSlots}
      (hrun : bindJoins ⟨c, args⟩ (insideAppended ⟨c, args⟩ q p.join)
        ⟨early, [q.base.source.schema]⟩ q.joins = .ok (bounds, t))
      (hlast : t'.NamedEarly name? q.slotCount t) =>
    bindJoin_of_defers h hwithin hc hon hd hi hlast.schemas_eq (schemasRefine_of_bindJoins hq hrun)
      (fun found hfound => schemasRefine_of_appended hr hq hrun hfound) hname hlast
  constructor
  · intro bound hbind
    obtain ⟨bounds, t, last, u, hrun, hlast, rfl⟩ := bind_append_eq_ok_iff.mp hbind
    obtain ⟨t', hrun', hnamed'⟩ := bindJoins_late (hnamed _) hslots hrun
    obtain ⟨u', hlast', hkeys⟩ := (hsteps hrun hnamed').1 last u hlast
    rw [← hjoins] at hrun'
    exact ⟨_, bind_append_eq_ok_iff.mpr ⟨bounds, t', last, u', hrun', hlast', rfl⟩, rfl, rfl, hkeys⟩
  · intro bound' hbind
    obtain ⟨bounds, t', last, u', hrun', hlast', rfl⟩ := bind_append_eq_ok_iff.mp hbind
    rw [hjoins] at hrun'
    obtain ⟨t, hrun, hnamed'⟩ :=
      bindJoins_early (hnamed _) hslots hrun' (free_of_bindJoin hname hlast')
    obtain ⟨u, hlast, hkeys⟩ := (hsteps hrun hnamed').2 last u' hlast'
    exact ⟨_, bind_append_eq_ok_iff.mpr ⟨bounds, t, last, u, hrun, hlast, rfl⟩, rfl, rfl, hkeys⟩

end Binder

/-- A join with parts that are given and the join with placeholders for them, supplied with what
stands for those parts, are bound to the same; the one can be built and bound exactly when the
other can. The new placeholders are the ones outside of the set. -/
theorem Query.Reachable.supplied_iff_given {q : Query} (hq : q.Reachable) {c : Compiler}
    (hc : c.conditions = .standard) {i i' : Invocation}
    (hinner : ∀ sub ∈ i.target.queries, sub.Reachable) (hon : i.HasStaticOn)
    {A : Placeholder → Prop} {args args' : Arguments} (h : args.Agree A args')
    (hA : ∀ p ∈ q.placeholders, A p) (hi : ∀ p ∈ i.placeholders, A p)
    (hd : i.Defers args' c.config.optionTable i') :
    (∀ bound, q.joinAndBind i args c c = .ok bound →
        ∃ bound', q.joinAndBind i' args' c c = .ok bound' ∧ bound.SameAs bound') ∧
      ∀ bound', q.joinAndBind i' args' c c = .ok bound' →
        ∃ bound, q.joinAndBind i args c c = .ok bound ∧ bound.SameAs bound' := by
  constructor
  · intro bound hbound
    obtain ⟨p, early, haliases, hbind⟩ := joinAndBind_eq_ok_iff.mp hbound
    obtain ⟨p'⟩ := p.exists_deferred hc hon hd
    have hparts := p.defers p' hd
    obtain ⟨name?, hname⟩ := hparts.joinAlias
    obtain ⟨late, haliases', hnamed⟩ := Binder.registerAlias_supplied hname haliases
    obtain ⟨bound', hbind', hsame⟩ :=
      (Binder.bind_of_defers h hc hq hinner hon hA hi hparts hname haliases hnamed).1 bound hbind
    exact ⟨bound', joinAndBind_eq_ok_iff.mpr ⟨p', late, haliases', hbind'⟩, hsame⟩
  · intro bound' hbound'
    obtain ⟨p', late, haliases', hbind'⟩ := joinAndBind_eq_ok_iff.mp hbound'
    obtain ⟨p⟩ := p'.exists_given hc hon hd (Binder.not_missing_of_bind hq hbind')
    have hparts := p.defers p' hd
    obtain ⟨name?, hname⟩ := hparts.joinAlias
    obtain ⟨early, haliases, hnamed⟩ :=
      Binder.registerAlias_given hname haliases' (Binder.free_of_bind hname hbind')
    obtain ⟨bound, hbind, hsame⟩ :=
      (Binder.bind_of_defers h hc hq hinner hon hA hi hparts hname haliases hnamed).2 bound' hbind'
    exact ⟨bound, joinAndBind_eq_ok_iff.mpr ⟨p, early, haliases, hbind⟩, hsame⟩

namespace Sample

/-- `join(query, :left, [p], c in source, on: c.post_id == p.id and c.score > ^0, …)`. -/
def commentsFrom (source : Expr) (options : List (String × Expr)) : Invocation where
  qualifier := .atom "left"
  binding := .list [.var "p"]
  target := .binary .mem (.var "c") source
  options := some (.keyword (("on", .binary .and
    (.binary .eq (.field "c" "post_id") (.field "p" "id"))
    (.binary .gt (.field "c" "score") (.interpolate (.positional 0)))) :: options))

/-- Knows an option `lock`, for which a string may be written. -/
def locking : Compiler :=
  { binder with config := { options := [⟨"lock", [.string], true, false⟩] } }

def givenComments : Invocation := commentsFrom (.schema "Comment") [
  ("as", .atom "comments"), ("prefix", .literal (.string "archive")),
  ("hints", .list [.literal (.string "by_post")]), ("lock", .literal (.string "share"))]

def laterComments : Invocation := commentsFrom (.interpolate (.positional 1)) [
  ("as", .interpolate (.positional 2)), ("prefix", .interpolate (.positional 3)),
  ("hints", .interpolate (.positional 4)), ("lock", .interpolate (.positional 5))]

/-- The score, and what `laterComments` leaves to supply. -/
def suppliedComments : Arguments := .positional [.value (.integer 3),
  .queryable (.schema "Comment"), .value (.string "comments"), .value (.string "archive"),
  .value (.list [.string "by_post"]), .value (.string "share")]

theorem defers_laterComments :
    givenComments.Defers suppliedComments locking.config.optionTable laterComments where
  qualifier_eq := rfl
  binding_eq := rfl
  target := .bound (.table rfl (.schema "Comment"))
  options := .keyword (.cons ⟨rfl, .same _⟩
    (.cons ⟨rfl, .supplied rfl (.name rfl rfl rfl) (by decide)⟩
    (.cons ⟨rfl, .supplied rfl (.tablePrefix rfl rfl rfl) (by decide)⟩
    (.cons ⟨rfl, .supplied rfl (.hints rfl rfl rfl) (by decide)⟩
    (.cons ⟨rfl, .supplied rfl (.extension (by decide) rfl rfl) (by decide)⟩ .nil)))))

theorem static_on_commentsFrom (source : Expr) (options : List (String × Expr))
    (h : "on" ∉ options.map Prod.fst) : (commentsFrom source options).HasStaticOn := by
  rintro pairs e ⟨⟩ hmem
  rcases List.mem_cons.mp hmem with he | hmem
  · cases he
    exact ⟨rfl, rfl⟩
  · exact absurd (List.mem_map.mpr ⟨_, hmem, rfl⟩) h

/-- The arguments agree on the score, whatever is supplied behind it. -/
theorem agree_scoreAbove (n : Int64) (more : List Argument) :
    (scoreAbove n).Agree (· = .positional 0) (.positional (.value (.integer n) :: more)) := by
  constructor
  · rintro _ rfl
    rfl
  · rintro _ q rfl hquery
    cases hquery

/-- The comments above a score of 3, with all that was supplied for the join. -/
def boundArchive : BoundJoin :=
  { boundComments 1 3 with
    aliasName := some "comments"
    tablePrefix := some "archive"
    hints := ["by_post"]
    extensions := .ofList [("lock", .string "share")] }

/-- With the source, the alias, the prefix, the hints and the lock given or supplied, the comments
are bound to the same. -/
theorem supplied_iff_given_comments :
    posts.Reachable ∧ locking.conditions = .standard ∧ givenComments.HasStaticOn ∧
      givenComments.placeholders = [.positional 0] ∧
      givenComments.Defers suppliedComments locking.config.optionTable laterComments ∧
      posts.joinAndBind givenComments (scoreAbove 3) locking locking =
        .ok ⟨posts.base, [boundArchive], .ofList [("comments", 1)]⟩ ∧
      ∃ bound, posts.joinAndBind laterComments suppliedComments locking locking = .ok bound ∧
        BoundQuery.SameAs ⟨posts.base, [boundArchive], .ofList [("comments", 1)]⟩ bound := by
  have hq : posts.Reachable := .ofTableRef _
  have hon : givenComments.HasStaticOn := static_on_commentsFrom _ _ (by decide)
  have hgiven : posts.joinAndBind givenComments (scoreAbove 3) locking locking =
    .ok ⟨posts.base, [boundArchive], .ofList [("comments", 1)]⟩ := rfl
  have hagree : (scoreAbove 3).Agree (· = .positional 0) suppliedComments := agree_scoreAbove 3 _
  have hi : ∀ p ∈ givenComments.placeholders, p = .positional 0 :=
    fun p hp => List.mem_singleton.mp hp
  have hinner : ∀ sub ∈ givenComments.target.queries, sub.Reachable := fun _ h => nomatch h
  have hnone : ∀ p ∈ posts.placeholders, p = .positional 0 := fun _ h => nomatch h
  refine ⟨hq, rfl, hon, rfl, defers_laterComments, hgiven, ?_⟩
  exact (hq.supplied_iff_given rfl hinner hon hagree hnone hi defers_laterComments).1 _ hgiven

/-- The comments under a lock that is given or left to supply. -/
def commentsLocked (lock : Expr) : Invocation :=
  commentsFrom (.schema "Comment") [("lock", lock)]

/-- An option accepts what may be written for it; what is supplied for it is any plain value. So the
join with the value itself is refused, and the join with a placeholder for it is bound. -/
theorem supplied_wider_than_given :
    posts.Reachable ∧ posts.placeholders = [] ∧ locking.conditions = .standard ∧
      locking.config.validate = .ok () ∧ (commentsLocked (.literal (.integer 5))).HasStaticOn ∧
      (commentsLocked (.literal (.integer 5))).placeholders = [.positional 0] ∧
      (∀ spec ∈ locking.config.optionTable, spec.name = "lock" → spec.interpolated = true) ∧
      (Argument.value (.integer 5)).StandsForOption "lock" (.literal (.integer 5)) ∧
      (scoreAbove 3).Agree (· = .positional 0)
        (.positional [.value (.integer 3), .value (.integer 5)]) ∧
      (∃ f, posts.joinAndBind (commentsLocked (.literal (.integer 5))) (scoreAbove 3) locking
        locking = .error f) ∧
      ∃ bound, posts.joinAndBind (commentsLocked (.interpolate (.positional 1)))
        (.positional [.value (.integer 3), .value (.integer 5)]) locking locking = .ok bound :=
  ⟨.ofTableRef _, rfl, rfl, rfl, static_on_commentsFrom _ _ (by decide), rfl, by decide,
    .extension (by decide) rfl rfl, agree_scoreAbove 3 _, ⟨_, rfl⟩, ⟨_, rfl⟩⟩

end Sample

end StagedJoin
