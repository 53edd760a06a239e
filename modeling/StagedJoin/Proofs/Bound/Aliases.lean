import StagedJoin.Proofs.Bound.Parts
import StagedJoin.Proofs.Query.Names

/-!
The names of a bound query. Binding registers the names that are supplied for joins, behind
those of the query and in the order of the joins, and only if they are free. So no name ever
moves to another slot, and no two joins are bound under one name.
-/
namespace StagedJoin

/-- The name that is supplied for a join whose alias was left for binding. -/
def JoinAlias.suppliedName? (args : Arguments) : JoinAlias → Option String
  | .explicit (.deferred p) => (args.get? p).bind Argument.name?
  | _ => Option.none

/-- Nothing is supplied for an alias that is known or absent. -/
theorem JoinAlias.suppliedName?_of_known {a : JoinAlias} (h : ∀ p, a ≠ .explicit (.deferred p))
    (args : Arguments) : a.suppliedName? args = Option.none := by
  unfold suppliedName?
  split
  · rename_i p
    exact absurd rfl (h p)
  · rfl

/-- The name of a join once it is bound, known before or supplied. -/
def JoinAlias.boundName? (args : Arguments) (a : JoinAlias) : Option String :=
  a.name?.or (a.suppliedName? args)

namespace Join

variable {args : Arguments}

/-- The names that are supplied for joins, with the slots of these joins. -/
def suppliedNames (args : Arguments) (js : List Join) : List (String × Nat) :=
  js.filterMap fun j => (j.joinAlias.suppliedName? args).map (·, j.slot)

theorem mem_suppliedNames {js : List Join} {name : String} {slot : Nat} :
    (name, slot) ∈ suppliedNames args js ↔
      ∃ j ∈ js, j.joinAlias.suppliedName? args = some name ∧ j.slot = slot := by
  simp [suppliedNames, List.mem_filterMap]

theorem suppliedNames_append (js ks : List Join) :
    suppliedNames args (js ++ ks) = suppliedNames args js ++ suppliedNames args ks :=
  List.filterMap_append

theorem suppliedNames_cons_of_supplied {j : Join} {name : String}
    (h : j.joinAlias.suppliedName? args = some name) (js : List Join) :
    suppliedNames args (j :: js) = (name, j.slot) :: suppliedNames args js :=
  List.filterMap_cons_some (by rw [h]; rfl)

theorem Contiguous.le_slot {js : List Join} {first : Nat} (h : Contiguous first js) :
    ∀ j ∈ js, first ≤ j.slot := by
  induction js generalizing first with
  | nil => exact fun _ hj => nomatch hj
  | cons j rest ih =>
    obtain ⟨rfl, hrest⟩ := h
    intro k hk
    rcases List.mem_cons.mp hk with rfl | hk
    · exact Nat.le_refl _
    · exact Nat.le_trans (Nat.le_add_right _ _) (ih hrest k hk)

/-- Joins that take slots of their own start at different slots. -/
theorem Contiguous.pairwise_slot_ne {js : List Join} {first : Nat} (h : Contiguous first js)
    (hpos : ∀ j ∈ js, 1 ≤ j.arity) : js.Pairwise (·.slot ≠ ·.slot) := by
  induction js generalizing first with
  | nil => exact .nil
  | cons j rest ih =>
    obtain ⟨rfl, hrest⟩ := h
    obtain ⟨hj, hpos⟩ := List.forall_mem_cons.mp hpos
    refine .cons (fun k hk => ?_) (ih hrest hpos)
    have hle := hrest.le_slot k hk
    omega

end Join

/-! ## Names in binding -/

namespace Binder

variable {b : Binder} {inner : Query → Except Failure BoundQuery} {slots t : BoundSlots} {j : Join}
  {aliasName : Option String}

/-- A join gets the name that is known or supplied, and a supplied name is added to the table. -/
theorem names_of_bindAlias (h : b.bindAlias slots j = .ok (aliasName, t)) :
    aliasName = j.joinAlias.boundName? b.arguments ∧
      t.aliases.entries = slots.aliases.entries ++ Join.suppliedNames b.arguments [j] := by
  by_cases hj : ∃ p, j.joinAlias = .explicit (.deferred p)
  · obtain ⟨p, hp⟩ := hj
    obtain ⟨arg, name, harg, hname⟩ := exists_name_of_bindAlias hp h
    have hsupplied : j.joinAlias.suppliedName? b.arguments = some name := by
      simp only [hp, JoinAlias.suppliedName?, harg, Option.bind_some, hname]
    rw [bindAlias_of_supplied hp harg hname] at h
    split at h
    · cases h
    · rename_i hfree
      cases h
      refine ⟨?_, ?_⟩
      · rw [JoinAlias.boundName?, hsupplied, hp]
        rfl
      · rw [Join.suppliedNames_cons_of_supplied hsupplied]
        exact OrderedMap.entries_insert_of_get?_none _ _ _ (by simpa using hfree)
  · have hknown := not_exists.mp hj
    have hsupplied := JoinAlias.suppliedName?_of_known hknown b.arguments
    rw [bindAlias_of_known hknown] at h
    cases h
    refine ⟨?_, ?_⟩
    · rw [JoinAlias.boundName?, hsupplied, Option.or_none]
    · simp [Join.suppliedNames, hsupplied]

/-- Joins get the names that are known or supplied, and the supplied ones are added to the table in
the order of the joins. -/
theorem names_of_bindJoins {js : List Join} {bounds : List BoundJoin}
    (h : b.bindJoins inner slots js = .ok (bounds, t)) :
    bounds.map (fun bound => (bound.aliasName, bound.slot)) =
      js.map (fun j => (j.joinAlias.boundName? b.arguments, j.slot)) ∧
    t.aliases.entries = slots.aliases.entries ++ Join.suppliedNames b.arguments js := by
  induction js generalizing slots bounds with
  | nil =>
    cases h
    exact ⟨rfl, (List.append_nil _).symm⟩
  | cons j rest ih =>
    obtain ⟨bound, u, hbound, more, hmore, rfl⟩ := bindJoins_cons_eq_ok_iff.mp h
    obtain ⟨parts, aliasName, halias, rfl⟩ := exists_parts_of_bindJoin hbound
    obtain ⟨hname, hentries⟩ := names_of_bindAlias halias
    obtain ⟨hnames, hmore⟩ := ih hmore
    refine ⟨?_, ?_⟩
    · rw [List.map_cons, List.map_cons, hnames, ← hname]
      rfl
    · rw [hmore, hentries, List.append_assoc, ← Join.suppliedNames_append]
      rfl

end Binder

namespace Query

variable {q : Query} {args : Arguments} {c : Compiler} {bound : BoundQuery}

theorem names_of_bind (h : q.bind args c = .ok bound) :
    bound.joins.map (fun j => (j.aliasName, j.slot)) =
      q.joins.map (fun j => (j.joinAlias.boundName? args, j.slot)) ∧
    bound.aliases.entries = q.aliases.entries ++ Join.suppliedNames args q.joins := by
  obtain ⟨joins, t, hjoins, rfl⟩ := Binder.bind_eq_ok_iff.mp h
  exact Binder.names_of_bindJoins hjoins

theorem aliasNames_of_bind (h : q.bind args c = .ok bound) :
    bound.joins.map BoundJoin.aliasName = q.joins.map fun j => j.joinAlias.boundName? args := by
  have hnames := congrArg (List.map Prod.fst) (names_of_bind h).1
  rw [List.map_map, List.map_map] at hnames
  exact hnames

/-- A query is bound only if the supplied names differ from each other and from the names of the
query. -/
theorem nodup_of_bind (h : q.bind args c = .ok bound) :
    (q.aliases.keys ++ (Join.suppliedNames args q.joins).map Prod.fst).Nodup := by
  have hdistinct := bound.aliases.distinct
  rwa [(names_of_bind h).2, List.map_append] at hdistinct

/-- Where every join is found under its known alias, every join is found under its bound one. -/
theorem JoinsFound.of_bind (hfound : q.JoinsFound) (h : q.bind args c = .ok bound) :
    ∀ j ∈ q.joins, ∀ name, j.joinAlias.boundName? args = some name →
      bound.aliases.get? name = some j.slot := by
  obtain ⟨-, hentries⟩ := names_of_bind h
  intro j hj name hname
  rw [← OrderedMap.mem_entries_iff, hentries, List.mem_append]
  rcases Option.or_eq_some_iff.mp hname with hknown | ⟨-, hsupplied⟩
  · exact .inl (OrderedMap.mem_entries_iff.mpr (hfound j hj name hknown))
  · exact .inr (Join.mem_suppliedNames.mpr ⟨j, hj, hsupplied, rfl⟩)

/-- Joins that are found under one name are one join. -/
theorem Reachable.nodup_aliasNames (hq : q.Reachable) (hfound : q.JoinsFound)
    (h : q.bind args c = .ok bound) : (bound.joins.filterMap BoundJoin.aliasName).Nodup := by
  have hnames : bound.joins.filterMap BoundJoin.aliasName =
      q.joins.filterMap fun j => j.joinAlias.boundName? args := by
    simpa only [List.filterMap_map, Function.id_comp] using
      congrArg (List.filterMap id) (aliasNames_of_bind h)
  have hslots := hq.layout.contiguous.pairwise_slot_ne fun j hj =>
    (hq.layout.wellPlaced j hj).arity_pos
  rw [hnames, List.Nodup, List.pairwise_filterMap]
  refine hslots.imp_of_mem fun hj hk hne name hname name' hname' => ?_
  rintro rfl
  have hj := hfound.of_bind h _ hj name hname
  have hk := hfound.of_bind h _ hk name hname'
  exact hne (Option.some.inj (hj.symm.trans hk))

/-- Aliases that are supplied are as safe as those that are known. A bound query keeps every name of
the query, every join is found under the name that is known or supplied for it, no two joins have
one name, and the names that are new are the supplied ones; a name that is supplied twice or is
taken already keeps the query from being bound. -/
theorem Reachable.supplied_aliases_safe (hq : q.Reachable) (hfound : q.JoinsFound)
    (args : Arguments) (c : Compiler) :
    (∀ bound, q.bind args c = .ok bound →
      (∀ name slot, q.aliasSlot? name = some slot → bound.aliases.get? name = some slot) ∧
      bound.joins.map BoundJoin.aliasName =
        q.joins.map (fun j => j.joinAlias.boundName? args) ∧
      (∀ j ∈ bound.joins, ∀ name, j.aliasName = some name →
        bound.aliases.get? name = some j.slot) ∧
      (bound.joins.filterMap BoundJoin.aliasName).Nodup ∧
      ∀ name slot, bound.aliases.get? name = some slot → q.aliasSlot? name = some slot ∨
        q.aliasSlot? name = none ∧
          ∃ j ∈ q.joins, j.joinAlias.suppliedName? args = some name ∧ j.slot = slot) ∧
    (∀ before j between k after name, q.joins = before ++ j :: between ++ k :: after →
      j.joinAlias.suppliedName? args = some name → k.joinAlias.suppliedName? args = some name →
      ∀ bound, q.bind args c ≠ .ok bound) ∧
    ∀ j ∈ q.joins, ∀ name, j.joinAlias.suppliedName? args = some name →
      (q.aliasSlot? name).isSome → ∀ bound, q.bind args c ≠ .ok bound := by
  refine ⟨fun bound h => ?_, ?_, ?_⟩
  · obtain ⟨hjoins, hentries⟩ := names_of_bind h
    refine ⟨?_, aliasNames_of_bind h, ?_, ?_, ?_⟩
    · intro name slot hslot
      rw [← OrderedMap.mem_entries_iff, hentries]
      exact List.mem_append_left _ (OrderedMap.mem_entries_iff.mpr hslot)
    · intro k hk name hname
      have hmem : (k.aliasName, k.slot) ∈ bound.joins.map fun j => (j.aliasName, j.slot) :=
        List.mem_map_of_mem hk
      rw [hjoins] at hmem
      obtain ⟨j, hj, he⟩ := List.mem_map.mp hmem
      obtain ⟨halias, hslot⟩ := Prod.mk.inj he
      rw [← hslot]
      exact hfound.of_bind h j hj name (halias.trans hname)
    · exact hq.nodup_aliasNames hfound h
    · intro name slot hslot
      rw [← OrderedMap.mem_entries_iff, hentries, List.mem_append] at hslot
      rcases hslot with hslot | hslot
      · exact .inl (OrderedMap.mem_entries_iff.mp hslot)
      · refine .inr ⟨?_, Join.mem_suppliedNames.mp hslot⟩
        have hapart := (List.nodup_append.mp (nodup_of_bind h)).2.2
        refine (q.aliases.get?_eq_none_iff name).mpr fun hkey => ?_
        exact hapart name hkey name (List.mem_map_of_mem hslot) rfl
  · intro before j between k after name hjoins hj hk bound h
    have hnodup := (List.nodup_append.mp (nodup_of_bind h)).2.1
    rw [hjoins, Join.suppliedNames_append, Join.suppliedNames_append,
      Join.suppliedNames_cons_of_supplied hj, Join.suppliedNames_cons_of_supplied hk] at hnodup
    simp [List.nodup_append] at hnodup
  · intro j hj name hname htaken bound h
    have hapart := (List.nodup_append.mp (nodup_of_bind h)).2.2
    have hkey : name ∈ q.aliases.keys := by
      by_contra hnot
      rw [aliasSlot?, (q.aliases.get?_eq_none_iff name).mpr hnot] at htaken
      cases htaken
    have hsupplied := Join.mem_suppliedNames.mpr ⟨j, hj, hname, rfl⟩
    exact hapart name hkey name (List.mem_map_of_mem hsupplied) rfl

end Query

namespace Sample

/-- `join(query, :left, [p], c in Comment, as: ^0)`. -/
def namedLater : Invocation :=
  { comments with options := some (.keyword [("as", .interpolate (.positional 0))]) }

def namedLaterJoin (slot : Nat) : Join :=
  { namedCommentsJoin slot with joinAlias := .explicit (.deferred (.positional 0)) }

/-- Posts, under a name, with comments and with more of them under a name that is left to supply. -/
def postsWithReplies : Query :=
  ⟨posts.base, [namedCommentsJoin 1, namedLaterJoin 2], .ofList [("post", 0), ("comment", 1)]⟩

theorem exists_join_postsWithReplies :
    ∃ q, compiler.join (posts.withAlias "post") namedComments = .ok q ∧
      compiler.join q namedLater = .ok postsWithReplies := ⟨_, rfl, rfl⟩

theorem reachable_postsWithReplies : postsWithReplies.Reachable := by
  obtain ⟨q, hq, hr⟩ := exists_join_postsWithReplies
  exact .join compiler namedLater
    (.join compiler namedComments (.withAlias "post" (.ofTableRef _)) (fun _ h => nomatch h) hq)
    (fun _ h => nomatch h) hr

theorem namesApart_postsWithReplies : postsWithReplies.NamesApart := by
  obtain ⟨q, hq, hr⟩ := exists_join_postsWithReplies
  exact .join compiler namedLater
    (.join compiler namedComments (.withAlias "post" (.ofTableRef _) List.not_mem_nil) hq) hr

/-- The second comments are found under `reply` when that is supplied for them, and the first ones
keep their name; the name of the first ones is refused. -/
theorem supplied_aliases_safe_replies :
    postsWithReplies.Reachable ∧ postsWithReplies.JoinsFound ∧
      (∃ bound, postsWithReplies.bind (.positional [.value (.string "reply")]) compiler =
          .ok bound ∧
        bound.joins.map BoundJoin.aliasName = [some "comment", some "reply"] ∧
        bound.aliases.get? "comment" = some 1 ∧ bound.aliases.get? "reply" = some 2) ∧
      ∀ bound, postsWithReplies.bind (.positional [.value (.atom "comment")]) compiler ≠
        .ok bound := by
  have hfound := namesApart_postsWithReplies.joinsFound
  have hsafe := reachable_postsWithReplies.supplied_aliases_safe hfound
  refine ⟨reachable_postsWithReplies, hfound, ⟨_, rfl, ?_⟩, ?_⟩
  · obtain ⟨hkept, hnames, hfound, -⟩ := (hsafe (.positional [.value (.string "reply")])
      compiler).1 _ rfl
    have hreply := hfound _ (List.mem_cons_of_mem _ List.mem_cons_self) _ rfl
    exact ⟨hnames, hkept "comment" 1 rfl, hreply⟩
  · have hjoin : namedLaterJoin 2 ∈ postsWithReplies.joins :=
      List.mem_cons_of_mem _ List.mem_cons_self
    exact (hsafe (.positional [.value (.atom "comment")]) compiler).2.2 _ hjoin "comment" rfl rfl

end Sample

end StagedJoin
