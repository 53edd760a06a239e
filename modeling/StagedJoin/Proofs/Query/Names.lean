import StagedJoin.Proofs.Query.Reachable

/-!
The names in the alias table of a query. A name stands for the base or for the join that
carries it as its alias, and no two joins carry one name. Joins that are added are
registered under names that are free, so every alias keeps its slot; naming the base is
the one step that can take a name from a join.
-/
namespace StagedJoin

namespace Join

/-- The aliases of a list of joins that are known before the query is bound. -/
def knownNames (js : List Join) : List String := js.filterMap fun j => j.joinAlias.name?

theorem mem_knownNames {js : List Join} {name : String} :
    name ∈ knownNames js ↔ ∃ j ∈ js, j.joinAlias.name? = some name := List.mem_filterMap

theorem knownNames_append (js ks : List Join) :
    knownNames (js ++ ks) = knownNames js ++ knownNames ks := List.filterMap_append

theorem knownNames_cons (j : Join) (js : List Join) :
    knownNames (j :: js) = j.joinAlias.name?.toList ++ knownNames js := by
  rw [← List.singleton_append, knownNames_append]
  cases h : j.joinAlias.name? <;> simp [knownNames, h]

end Join

namespace Query

variable {q r other : Query} {j : Join} {offset first : Nat} {name : String} {slot : Nat}

/-- Every join whose alias is known is found under it. -/
def JoinsFound (q : Query) : Prop :=
  ∀ j ∈ q.joins, ∀ name ∈ j.joinAlias.name?, q.aliasSlot? name = some j.slot

/-- The names of a query, whatever steps have built it. -/
structure Named (q : Query) : Prop where
  nodup : (Join.knownNames q.joins).Nodup
  /-- A join is found under its alias unless the base has taken the name. -/
  found : ∀ j ∈ q.joins, ∀ name ∈ j.joinAlias.name?,
    q.aliasSlot? name = some j.slot ∨ q.aliasSlot? name = some 0
  /-- What is no name of the base is the alias of a join. -/
  carried : ∀ name slot, q.aliasSlot? name = some slot →
    slot = 0 ∨ ∃ j ∈ q.joins, j.joinAlias.name? = some name ∧ j.slot = slot

theorem named_ofTableRef (ref : TableRef) : (ofTableRef ref).Named :=
  ⟨List.nodup_nil, fun _ hj => (List.not_mem_nil hj).elim, fun _ _ h => nomatch h⟩

theorem Named.isSome_of_mem (h : q.Named) (hname : name ∈ Join.knownNames q.joins) :
    (q.aliasSlot? name).isSome := by
  obtain ⟨j, hj, hname⟩ := Join.mem_knownNames.mp hname
  rcases h.found j hj name hname with hslot | hslot <;> simp [hslot]

/-! ## Names of the base -/

theorem aliasSlot?_withAlias (q : Query) (given name : String) :
    (q.withAlias given).aliasSlot? name = if name = given then some 0 else q.aliasSlot? name :=
  OrderedMap.get?_insert q.aliases given name 0

theorem Named.withAlias (h : q.Named) (given : String) : (q.withAlias given).Named where
  nodup := h.nodup
  found := by
    intro j hj name hname
    rw [aliasSlot?_withAlias]
    split
    · exact .inr rfl
    · exact h.found j hj name hname
  carried := by
    intro name slot hslot
    rw [aliasSlot?_withAlias] at hslot
    split at hslot
    · cases hslot
      exact .inl rfl
    · exact h.carried name slot hslot

/-- Naming the base keeps every alias exactly if the name does not stand for a join. -/
theorem extends_withAlias_iff :
    (q.withAlias name).aliases.Extends q.aliases ↔
      ∀ slot, q.aliasSlot? name = some slot → slot = 0 := by
  constructor
  · intro h slot hslot
    have hkept : (q.withAlias name).aliasSlot? name = some slot := h name slot hslot
    rw [aliasSlot?_withAlias, if_pos rfl] at hkept
    exact (Option.some.inj hkept).symm
  · intro h given slot hslot
    change (q.withAlias name).aliasSlot? given = some slot
    rw [aliasSlot?_withAlias]
    split
    · rename_i hgiven
      subst hgiven
      rw [h slot hslot]
    · exact hslot

theorem JoinsFound.withAlias (h : q.JoinsFound) (hname : name ∉ Join.knownNames q.joins) :
    (q.withAlias name).JoinsFound := by
  intro j hj given hgiven
  rw [aliasSlot?_withAlias, if_neg]
  · exact h j hj given hgiven
  · rintro rfl
    exact hname (Join.mem_knownNames.mpr ⟨j, hj, hgiven⟩)

/-- A name that is offered to the base is taken over unless it stands for a join. -/
theorem shareBaseAliases_cons_cases (aliases : OrderedMap Nat) (given : String) (slot : Nat)
    (rest : List (String × Nat)) :
    (∃ grown, shareBaseAliases aliases ((given, slot) :: rest) = shareBaseAliases grown rest ∧
      (slot = 0 → ∀ k, aliases.get? given = some k → k = 0) ∧
      ∀ name, grown.get? name =
        (aliases.get? name).or (if (name, 0) = (given, slot) then some 0 else none)) ∨
    ∃ k, shareBaseAliases aliases ((given, slot) :: rest) = .error (aliasTaken given) ∧
      slot = 0 ∧ aliases.get? given = some k ∧ k ≠ 0 := by
  by_cases hslot : slot = 0
  · subst hslot
    cases hgiven : aliases.get? given with
    | none =>
      refine .inl ⟨aliases.insert given 0, by simp [shareBaseAliases, hgiven], ?_, ?_⟩
      · intro _ k hk
        cases hk
      · intro name
        rw [OrderedMap.get?_insert]
        by_cases hname : name = given <;> simp [hname, hgiven]
    | some k =>
      cases k with
      | zero =>
        refine .inl ⟨aliases, by simp [shareBaseAliases, hgiven], ?_, ?_⟩
        · intro _ k hk
          exact (Option.some.inj hk).symm
        · intro name
          by_cases hname : name = given <;> simp [hname, hgiven]
      | succ k =>
        exact .inr ⟨k + 1, by simp [shareBaseAliases, hgiven], rfl, rfl, Nat.succ_ne_zero k⟩
  · refine .inl ⟨aliases, by rw [shareBaseAliases, if_pos hslot], fun h => absurd h hslot, ?_⟩
    intro name
    simp [Ne.symm hslot]

/-- The base takes over the names of another base, or one of them stands for a join. -/
theorem shareBaseAliases_cases (aliases : OrderedMap Nat) (entries : List (String × Nat)) :
    (∃ shared, shareBaseAliases aliases entries = .ok shared ∧
      (∀ name, (name, 0) ∈ entries → ∀ slot, aliases.get? name = some slot → slot = 0) ∧
      ∀ name, shared.get? name =
        (aliases.get? name).or (if (name, 0) ∈ entries then some 0 else none)) ∨
    ∃ name slot, shareBaseAliases aliases entries = .error (aliasTaken name) ∧
      (name, 0) ∈ entries ∧ aliases.get? name = some slot ∧ slot ≠ 0 := by
  induction entries generalizing aliases with
  | nil =>
    refine .inl ⟨aliases, rfl, ?_, ?_⟩
    · intro name hname
      cases hname
    · simp
  | cons e rest ih =>
    obtain ⟨given, slot⟩ := e
    rcases shareBaseAliases_cons_cases aliases given slot rest with
      ⟨grown, hstep, hgiven, hgrown⟩ | ⟨k, hstep, rfl, hk⟩
    · rw [hstep]
      rcases ih grown with ⟨shared, hok, hfree, hget⟩ | ⟨name, k, herror, hname, hk, hne⟩
      · refine .inl ⟨shared, hok, ?_, ?_⟩
        · intro name hname k hk
          rcases List.mem_cons.mp hname with hhead | hrest
          · cases hhead
            exact hgiven rfl k hk
          · exact hfree name hrest k (by simp [hgrown, hk])
        · intro name
          rw [hget, hgrown, Option.or_assoc]
          by_cases hhead : (name, 0) = (given, slot) <;> simp [hhead]
      · refine .inr ⟨name, k, herror, List.mem_cons_of_mem _ hname, ?_, hne⟩
        rw [hgrown] at hk
        rcases Option.or_eq_some_iff.mp hk with hk | ⟨-, hzero⟩
        · exact hk
        · split at hzero
          · exact absurd (Option.some.inj hzero).symm hne
          · cases hzero
    · exact .inr ⟨given, k, hstep, List.mem_cons_self, hk⟩

/-! ## Names of joins -/

theorem free_of_append (h : q.append j = .ok r) :
    ∀ name ∈ j.joinAlias.name?, q.aliasSlot? name = none := by
  obtain ⟨-, aliases, haliases, -⟩ := append_eq_ok_iff.mp h
  exact (registerAlias_eq_ok_iff.mp haliases).1

/-- The only new name is the alias of the join, if it is known. -/
theorem aliasSlot?_append (h : q.append j = .ok r) (name : String) :
    r.aliasSlot? name = (q.aliasSlot? name).or
      (if j.joinAlias.name? = some name then some j.slot else none) := by
  have hfree := free_of_append h
  obtain ⟨-, aliases, haliases, rfl⟩ := append_eq_ok_iff.mp h
  obtain ⟨-, rfl⟩ := registerAlias_eq_ok_iff.mp haliases
  change OrderedMap.get? (j.joinAlias.name?.elim q.aliases (q.aliases.insert · j.slot)) name = _
  cases hj : j.joinAlias.name? with
  | none => simp [aliasSlot?]
  | some given =>
    rw [Option.elim_some, OrderedMap.get?_insert]
    by_cases hname : name = given
    · subst hname
      simp [hfree name hj]
    · simp [aliasSlot?, hname, Ne.symm hname]

theorem append_of_taken (hslot : j.slot = q.slotCount) (hname : j.joinAlias.name? = some name)
    (htaken : (q.aliasSlot? name).isSome) : q.append j = .error (aliasTaken name) := by
  have hcontains : q.aliases.contains name = true := htaken
  rw [append, if_neg (not_not_intro hslot), hname, registerAlias, if_pos hcontains]

theorem Named.append (h : q.Named) (hr : q.append j = .ok r) : r.Named := by
  have hfree := free_of_append hr
  have hget := aliasSlot?_append hr
  obtain ⟨-, aliases, -, rfl⟩ := append_eq_ok_iff.mp hr
  refine ⟨?_, ?_, ?_⟩
  · rw [Join.knownNames_append, List.nodup_append]
    refine ⟨h.nodup, ?_, ?_⟩
    · cases hj : j.joinAlias.name? <;> simp [Join.knownNames, hj]
    · rintro name hname _ hnew rfl
      obtain ⟨k, hk, hcarried⟩ := Join.mem_knownNames.mp hnew
      rw [List.mem_singleton.mp hk] at hcarried
      have hsome := h.isSome_of_mem hname
      rw [hfree name hcarried] at hsome
      cases hsome
  · intro k hk name hname
    rw [hget]
    rcases List.mem_append.mp hk with hk | hk
    · rcases h.found k hk name hname with hslot | hslot <;> simp [hslot]
    · rw [List.mem_singleton.mp hk] at hname ⊢
      have hj : j.joinAlias.name? = some name := hname
      simp [hfree name hname, hj]
  · intro name slot hslot
    rw [hget] at hslot
    rcases Option.or_eq_some_iff.mp hslot with hslot | ⟨-, hslot⟩
    · rcases h.carried name slot hslot with hzero | ⟨k, hk, hcarried⟩
      · exact .inl hzero
      · exact .inr ⟨k, List.mem_append_left _ hk, hcarried⟩
    · split at hslot
      · refine .inr ⟨j, ?_, ‹_›, Option.some.inj hslot⟩
        exact List.mem_append_right _ (List.mem_singleton_self j)
      · cases hslot

theorem JoinsFound.append (h : q.JoinsFound) (hr : q.append j = .ok r) : r.JoinsFound := by
  have hfree := free_of_append hr
  have hget := aliasSlot?_append hr
  obtain ⟨-, aliases, -, rfl⟩ := append_eq_ok_iff.mp hr
  intro k hk name hname
  rw [hget]
  rcases List.mem_append.mp hk with hk | hk
  · simp [h k hk name hname]
  · rw [List.mem_singleton.mp hk] at hname ⊢
    have hj : j.joinAlias.name? = some name := hname
    simp [hfree name hname, hj]

/-- What every join that is appended keeps, a list of joins that is appended keeps. -/
theorem appendShifted_induction {P : Query → Prop}
    (hstep : ∀ q j r, P q → q.append j = .ok r → P r) {js : List Join} (h : P q)
    (hr : q.appendShifted offset js = .ok r) : P r := by
  induction js generalizing q with
  | nil =>
    cases hr
    exact h
  | cons j rest ih =>
    obtain ⟨q', hq', hr⟩ := appendShifted_cons_eq_ok_iff.mp hr
    exact ih (hstep _ _ _ h hq') hr

theorem Named.absorb (h : q.Named) (hr : q.absorb other = .ok r) : r.Named := by
  obtain ⟨shared, hshared, hr⟩ := absorb_eq_ok_iff.mp hr
  rcases shareBaseAliases_cases q.aliases other.aliases.entries with
    ⟨_, hok, -, hget⟩ | ⟨_, _, herror, -⟩
  · cases hok.symm.trans hshared
    have hnamed : Named ⟨q.base, q.joins, shared⟩ := by
      refine ⟨h.nodup, ?_, ?_⟩
      · intro j hj name hname
        have hext := extends_shareBaseAliases hshared
        exact (h.found j hj name hname).imp (hext name _) (hext name _)
      · intro name slot hslot
        change shared.get? name = some slot at hslot
        rw [hget] at hslot
        rcases Option.or_eq_some_iff.mp hslot with hslot | ⟨-, hslot⟩
        · exact h.carried name slot hslot
        · split at hslot
          · exact .inl (Option.some.inj hslot).symm
          · cases hslot
    exact appendShifted_induction (P := Named) (fun _ _ _ => Named.append) hnamed hr
  · cases herror.symm.trans hshared

theorem JoinsFound.absorb (h : q.JoinsFound) (hr : q.absorb other = .ok r) : r.JoinsFound := by
  obtain ⟨shared, hshared, hr⟩ := absorb_eq_ok_iff.mp hr
  have hfound : JoinsFound ⟨q.base, q.joins, shared⟩ := by
    intro j hj name hname
    exact extends_shareBaseAliases hshared name _ (h j hj name hname)
  exact appendShifted_induction (P := JoinsFound) (fun _ _ _ => JoinsFound.append) hfound hr

theorem Reachable.named (h : q.Reachable) : q.Named := by
  induction h with
  | ofTableRef ref => exact named_ofTableRef ref
  | withAlias name _ ih => exact ih.withAlias name
  | withPrefix tablePrefix _ ih => exact ⟨ih.nodup, ih.found, ih.carried⟩
  | join c i _ _ hr ih _ =>
    obtain ⟨p, hp⟩ := Compiler.join_eq_ok_iff.mp hr
    exact ih.append hp
  | absorb _ _ hr ih _ => exact ih.absorb hr

/-- Built step by step without ever giving the base the name of a join. -/
inductive NamesApart : Query → Prop
  | ofTableRef (ref : TableRef) : NamesApart (ofTableRef ref)
  | withAlias {q : Query} (name : String) : q.NamesApart → name ∉ Join.knownNames q.joins →
      NamesApart (q.withAlias name)
  | withPrefix {q : Query} (tablePrefix : String) : q.NamesApart →
      NamesApart (q.withPrefix tablePrefix)
  | join {q r : Query} (c : Compiler) (i : Invocation) : q.NamesApart → c.join q i = .ok r →
      NamesApart r
  | absorb {q other r : Query} : q.NamesApart → q.absorb other = .ok r → NamesApart r

/-- Only a name that is given to the base hides a join. -/
theorem NamesApart.joinsFound (h : q.NamesApart) : q.JoinsFound := by
  induction h with
  | ofTableRef ref =>
    intro j hj
    cases hj
  | withAlias name _ hname ih => exact ih.withAlias hname
  | withPrefix tablePrefix _ ih => exact ih
  | join c i _ hr ih =>
    obtain ⟨p, hp⟩ := Compiler.join_eq_ok_iff.mp hr
    exact ih.append hp
  | absorb _ hr ih => exact ih.absorb hr

end Query

/-! ## Likes and named comments -/

namespace Sample

/-- `join(query, :inner, [p], l in assoc(p, :likes))`. -/
def likes : Invocation where
  qualifier := .atom "inner"
  binding := .list [.var "p"]
  target := .binary .mem (.var "l") (.call "assoc" [.var "p", .atom "likes"])

/-- `join(query, :left, [p], c in Comment, as: :comment)`. -/
def namedComments : Invocation :=
  { comments with options := some (.keyword [("as", .atom "comment")]) }

def likesJoin (slot : Nat) (joinAlias : JoinAlias) : Join where
  qualifier := .inner
  source := .association ⟨0, .literal "likes", none⟩
  on := .compiled .truth
  joinAlias := joinAlias
  tablePrefix := none
  hints := none
  extensions := .empty
  slot := slot
  arity := 1
  schemas := [none]

def namedCommentsJoin (slot : Nat) : Join :=
  { commentsJoin slot with on := .compiled .truth, joinAlias := .explicit (.literal "comment") }

def postsWithLikes : Query :=
  ⟨posts.base, [likesJoin 1 (.inferred "likes")], .ofList [("likes", 1)]⟩

/-- Posts, under a name, with likes and comments. -/
def discussedPosts : Query :=
  ⟨posts.base, [likesJoin 1 (.inferred "likes"), namedCommentsJoin 2],
    .ofList [("post", 0), ("likes", 1), ("comment", 2)]⟩

theorem join_posts_likes : compiler.join posts likes = .ok postsWithLikes := rfl

theorem reachable_postsWithLikes : postsWithLikes.Reachable :=
  .join compiler likes (.ofTableRef _) (fun _ h => nomatch h) join_posts_likes

theorem namesApart_postsWithLikes : postsWithLikes.NamesApart :=
  .join compiler likes (.ofTableRef _) join_posts_likes

theorem exists_join_discussedPosts :
    ∃ q, compiler.join (posts.withAlias "post") likes = .ok q ∧
      compiler.join q namedComments = .ok discussedPosts := ⟨_, rfl, rfl⟩

theorem reachable_discussedPosts : discussedPosts.Reachable := by
  obtain ⟨q, hq, hr⟩ := exists_join_discussedPosts
  exact .join compiler namedComments
    (.join compiler likes (.withAlias "post" (.ofTableRef _)) (fun _ h => nomatch h) hq)
    (fun _ h => nomatch h) hr

theorem namesApart_discussedPosts : discussedPosts.NamesApart := by
  obtain ⟨q, hq, hr⟩ := exists_join_discussedPosts
  exact .join compiler namedComments
    (.join compiler likes (.withAlias "post" (.ofTableRef _) List.not_mem_nil) hq) hr

end Sample

end StagedJoin
