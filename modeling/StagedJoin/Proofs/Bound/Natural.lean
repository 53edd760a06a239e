import StagedJoin.Proofs.Bound.Parts
import StagedJoin.Proofs.Query.Origin

/-!
The condition of an association in a bound query. It stands in front of what the
clause of the join would be bound to without it, once and only once: in front of
the compiled condition where the association has been found with the join, in
front of what is supplied where the clause is deferred, and in front of either
where the association is found only now. The literal `true` leaves it alone.
-/
namespace StagedJoin

/-! ## Conditions behind others -/

theorem Term.isTrue_mapTags (f : TypeTag → TypeTag) (t : Term) :
    (t.mapTags f).isTrue = t.isTrue := by
  cases t <;> rfl

namespace BoundCondition

/-- The literal `true` without parameters. -/
def isTruth (c : BoundCondition) : Bool := c.params.isEmpty && c.term.isTrue

/-- A bound condition behind one without parameters, if there is one. -/
def behind (natural? : Option Condition) (user : BoundCondition) : BoundCondition :=
  match natural? with
  | some natural =>
    if user.isTruth then ⟨natural.term, []⟩
    else ⟨.binary .and natural.term user.term, user.params⟩
  | none => user

end BoundCondition

/-- The condition of an association between its own slot and that of its owner. -/
def BoundSource.natural? (slot : Nat) : BoundSource → Option Condition
  | .association owner r => some (r.condition slot owner)
  | _ => none

/-- The join with another clause. -/
def Join.withClause (clause : OnClause) (j : Join) : Join := { j with on := clause }

theorem ResolvedAssociation.condition_and (r : ResolvedAssociation) (slot owner : Nat)
    (c : Condition) :
    (r.condition slot owner).and c =
      if c.isTruth then r.condition slot owner
      else ⟨.binary .and (r.condition slot owner).term c.term, c.params⟩ := by
  have hnatural : (r.condition slot owner).isTruth = false := rfl
  have hparams : (r.condition slot owner).params = [] := rfl
  simp only [Condition.and, hnatural, hparams, Bool.false_eq_true, ↓reduceIte, List.length_nil,
    Term.shiftParams_zero, List.nil_append]

namespace Binder

variable {b : Binder} {inner : Query → Except Failure BoundQuery} {slots slots' : BoundSlots}
  {j : Join} {clause : OnClause}

/-! ## Conditions, once their arguments are known -/

/-- `on` is what `c` is bound to, with the arguments that its parameters refer to. -/
def Settles (b : Binder) (slots : BoundSlots) (last : Nat) (args : Arguments) (c : Condition)
    (on : BoundCondition) : Prop :=
  (∀ s ∈ c.slots, s ≤ last) ∧
    ∃ params, c.params.mapM (bindParam (b.context slots) args) = .ok params ∧
      ⟨c.term.mapTags (b.context slots).resolve, params⟩ = on

theorem bindOn_eq_ok_iff_settles {late : Option Condition} {on : BoundCondition} :
    b.bindOn slots j late = .ok on ↔
      ∃ c args, b.onCondition slots j = .ok (c, args) ∧
        b.Settles slots j.lastSlot args (conjoin late c) on :=
  bindOn_eq_ok_iff

theorem Settles.isTruth_eq {last : Nat} {args : Arguments} {c : Condition} {on : BoundCondition}
    (h : b.Settles slots last args c on) : on.isTruth = c.isTruth := by
  obtain ⟨-, params, hparams, rfl⟩ := h
  have hlength : params.length = c.params.length := (mapM_eq_ok_iff.mp hparams).length_eq.symm
  have hempty : params.isEmpty = c.params.isEmpty := by
    rw [Bool.eq_iff_iff, List.isEmpty_iff_length_eq_zero, List.isEmpty_iff_length_eq_zero, hlength]
  simp only [BoundCondition.isTruth, Condition.isTruth, hempty, Term.isTrue_mapTags]

/-- The condition of an association settles in front of whatever settles behind it. -/
theorem Settles.exists_behind {source : BoundSource} {slot last : Nat} {args : Arguments}
    {c : Condition} {on : BoundCondition}
    (h : b.Settles slots last args (conjoin (source.natural? slot) c) on) :
    ∃ user, b.Settles slots last args c user ∧ on = user.behind (source.natural? slot) := by
  cases source with
  | association owner r =>
    have hand : conjoin (BoundSource.natural? slot (.association owner r)) c =
        (r.condition slot owner).and c := rfl
    rw [hand, r.condition_and] at h
    by_cases hc : c.isTruth
    · rw [if_pos hc] at h
      obtain ⟨hlast, params, hparams, rfl⟩ := h
      cases hparams
      cases Condition.eq_truth_of_isTruth hc
      have hsettles : b.Settles slots last args .truth ⟨.truth, []⟩ :=
        ⟨(fun s hs => nomatch hs), [], rfl, rfl⟩
      exact ⟨⟨.truth, []⟩, hsettles, rfl⟩
    · rw [if_neg hc] at h
      obtain ⟨hlast, params, hparams, rfl⟩ := h
      have hsettles : b.Settles slots last args c
          ⟨c.term.mapTags (b.context slots).resolve, params⟩ := by
        refine ⟨?_, params, hparams, rfl⟩
        intro s hs
        apply hlast
        simp only [Condition.slots, Term.slots, List.mem_append] at hs ⊢
        exact hs.imp_left .inr
      refine ⟨_, hsettles, ?_⟩
      have htruth := hsettles.isTruth_eq
      simp only [BoundCondition.behind, BoundSource.natural?, htruth, hc]
      rfl
  | _ => exact ⟨on, h, rfl⟩

/-! ## The clause that was given -/

/-- A condition in front of a clause ends up in front of the condition of the clause. -/
theorem exists_given_of_onCondition {early : Option Condition} (hon : j.on = clause.behind early)
    (hclause : clause.Bare) {c : Condition} {args : Arguments}
    (h : b.onCondition slots j = .ok (c, args)) :
    ∃ given, b.onCondition slots (j.withClause clause) = .ok (given, args) ∧
      conjoin early given = c := by
  unfold onCondition at h ⊢
  rw [hon] at h
  cases clause with
  | compiled given =>
    cases early <;> cases h <;> exact ⟨_, rfl, rfl⟩
  | deferred p previous =>
    cases hclause p previous rfl
    have hsupplied : ∃ given, b.suppliedCondition slots j p = .ok (given, args) ∧
        conjoin early given = c := by
      cases early
      all_goals
        obtain ⟨⟨given, args'⟩, hgiven, he⟩ := bind_eq_ok.mp h
        cases he
        exact ⟨given, hgiven, rfl⟩
    obtain ⟨given, hgiven, he⟩ := hsupplied
    exact ⟨given, bind_eq_ok.mpr ⟨(given, args), hgiven, rfl⟩, he⟩

/-- An association is found with its join or now, and its condition is put in front at that time
and at no other. -/
theorem SourceBinds.conjoin_conjoin {found : FoundSource} (h : b.SourceBinds inner slots j found)
    (c : Condition) :
    conjoin found.lateCondition (conjoin (j.source.naturalCondition? j.slot) c) =
      conjoin (found.source.natural? j.slot) c := by
  cases h with
  | table hj => rw [hj]; rfl
  | runtime hj => rw [hj]; rfl
  | subquery hj => rw [hj]; rfl
  | association hj ha => simp only [hj, JoinSource.naturalCondition?, ha]; rfl
  | late hj ha => simp only [hj, JoinSource.naturalCondition?, ha]; rfl
  | values hj => rw [hj]; rfl

/-- The condition of a join is what the clause that was given for it is bound to, behind the
condition of its association. -/
theorem exists_user_of_bindOn {before : BoundSlots} {found : FoundSource}
    (hfound : b.bindSource inner before j = .ok found)
    (hon : j.on = clause.behind (j.source.naturalCondition? j.slot)) (hclause : clause.Bare)
    {on : BoundCondition} (h : b.bindOn slots j found.lateCondition = .ok on) :
    ∃ user, b.bindOn slots (j.withClause clause) none = .ok user ∧
      on = user.behind (found.source.natural? j.slot) := by
  obtain ⟨c, args, hc, hsettles⟩ := bindOn_eq_ok_iff_settles.mp h
  obtain ⟨given, hgiven, rfl⟩ := exists_given_of_onCondition hon hclause hc
  rw [(bindSource_eq_ok_iff.mp hfound).conjoin_conjoin] at hsettles
  obtain ⟨user, huser, rfl⟩ := hsettles.exists_behind
  exact ⟨user, bindOn_eq_ok_iff_settles.mpr ⟨given, args, hgiven, huser⟩, rfl⟩

theorem Parts.exists_user (p : b.Parts inner slots j) (h : j.Given clause) :
    ∃ user, b.bindOn p.grown (j.withClause clause) none = .ok user ∧
      p.on = user.behind (p.found.source.natural? j.slot) :=
  exists_user_of_bindOn p.found_eq h.on_eq h.bare p.on_eq

end Binder

/-! ## The join without its association -/

/-- The join on the table of a schema in place of its association, with a given clause. -/
def Join.onTable (related : String) (clause : OnClause) (j : Join) : Join :=
  { j.withClause clause with source := .table { schema := some related } }

def BoundJoin.onTable (related : String) (on : BoundCondition) (j : BoundJoin) : BoundJoin :=
  { j with source := .table { schema := some related }, on := on }

theorem Join.totalArity_set {js : List Join} {k : Nat} {j j' : Join} (hj : js[k]? = some j)
    (ha : j'.arity = j.arity) : totalArity (js.set k j') = totalArity js := by
  induction js generalizing k with
  | nil => rfl
  | cons i rest ih =>
    cases k with
    | zero =>
      cases hj
      rw [List.set_cons_zero, totalArity, totalArity, ha]
    | succ k => rw [List.set_cons_succ, totalArity, totalArity, ih hj]

namespace Binder

variable {b : Binder} {inner : Query → Except Failure BoundQuery} {slots slots' t : BoundSlots}
  {j : Join} {bound : BoundJoin} {clause : OnClause} {owner : Nat} {r : ResolvedAssociation}

/-- The parts of a join are bound on the related table as they are with the association. -/
def Parts.onTable (p : b.Parts inner slots j) (hs : p.found.source = .association owner r)
    {user : BoundCondition} (h : b.bindOn p.grown (j.withClause clause) none = .ok user) :
    b.Parts inner slots (j.onTable r.related clause) where
  found := { source := .table { schema := some r.related } }
  on := user
  tablePrefix := p.tablePrefix
  hints := p.hints
  extensions := p.extensions
  slot_eq := p.slot_eq
  found_eq := rfl
  on_eq := by
    unfold Parts.grown at h
    rw [hs] at h
    exact h
  prefix_eq := p.prefix_eq
  hints_eq := p.hints_eq
  extensions_eq := p.extensions_eq

/-- Without the association, the join is bound to the same but for its source and the condition of
the association. -/
theorem bindJoin_onTable (h : b.bindJoin inner slots j = .ok (bound, t))
    (hs : bound.source = .association owner r) (hclause : j.Given clause) :
    ∃ user, b.bindJoin inner slots (j.onTable r.related clause) =
        .ok (bound.onTable r.related user, t) ∧
      bound.on = user.behind (some (r.condition bound.slot owner)) := by
  obtain ⟨p, aliasName, halias, rfl⟩ := exists_parts_of_bindJoin h
  have hsource : p.found.source = .association owner r := hs
  obtain ⟨user, huser, hon⟩ := p.exists_user hclause
  let without : b.Parts inner slots (j.onTable r.related clause) := p.onTable hsource huser
  have hgrown : without.grown = p.grown := by
    unfold Parts.grown
    rw [hsource]
    rfl
  have halias' : b.bindAlias without.grown (j.onTable r.related clause) = .ok (aliasName, t) := by
    rw [hgrown]
    exact halias
  refine ⟨user, ?_, ?_⟩
  · rw [without.bindJoin_eq, halias']
    rfl
  · rw [hsource] at hon
    exact hon

/-- A join that is bound in a run may be replaced by one that is bound in the same place and leaves
the same slots; the rest of the run does not change. -/
theorem exists_step_of_bindJoins {js : List Join} {bounds : List BoundJoin}
    (h : b.bindJoins inner slots js = .ok (bounds, slots')) {k : Nat}
    (hk : bounds[k]? = some bound) :
    ∃ j s t, js[k]? = some j ∧ b.bindJoin inner s j = .ok (bound, t) ∧
      ∀ j' bound', b.bindJoin inner s j' = .ok (bound', t) →
        b.bindJoins inner slots (js.set k j') = .ok (bounds.set k bound', slots') := by
  induction js generalizing slots bounds k with
  | nil =>
    cases h
    cases hk
  | cons j rest ih =>
    obtain ⟨first, u, hfirst, more, hmore, rfl⟩ := bindJoins_cons_eq_ok_iff.mp h
    cases k with
    | zero =>
      cases hk
      refine ⟨j, slots, u, rfl, hfirst, ?_⟩
      intro j' bound' hj'
      exact bindJoins_cons_eq_ok_iff.mpr ⟨bound', u, hj', more, hmore, rfl⟩
    | succ k =>
      obtain ⟨i, s, t, hi, hbound, hreplace⟩ := ih hmore hk
      refine ⟨i, s, t, hi, hbound, ?_⟩
      intro j' bound' hj'
      exact bindJoins_cons_eq_ok_iff.mpr ⟨first, u, hfirst, _, hreplace j' bound' hj', rfl⟩

/-- The owner of an association that is bound is the one that the join has. -/
theorem SourceBinds.owner_eq {found : FoundSource} (h : b.SourceBinds inner slots j found)
    (hs : found.source = .association owner r) :
    ∃ a, j.source = .association a ∧ a.owner = owner := by
  cases h with
  | association hj =>
    cases hs
    exact ⟨_, hj, rfl⟩
  | late hj =>
    cases hs
    exact ⟨_, hj, rfl⟩
  | _ => cases hs

theorem owner_lt_of_bindJoin (hj : j.WellPlaced) (h : b.bindJoin inner slots j = .ok (bound, t))
    (hs : bound.source = .association owner r) : owner < bound.slot := by
  obtain ⟨p, aliasName, -, rfl⟩ := exists_parts_of_bindJoin h
  obtain ⟨a, ha, rfl⟩ := (bindSource_eq_ok_iff.mp p.found_eq).owner_eq hs
  exact hj.owner_lt a ha

end Binder

/-! ## Queries -/

/-- The condition of an association speaks of the slots of the join and of its owner, and it stands
in front of the condition that the same query is bound to with the related table in place of the
association and the clause as it was given; a clause that comes to the literal `true` adds
nothing. -/
theorem Query.Reachable.association_conjoined_once {q : Query} {args : Arguments} {c : Compiler}
    {bq : BoundQuery} (hq : q.Reachable) (h : q.bind args c = .ok bq) :
    ∀ k bound owner r, bq.joins[k]? = some bound → bound.source = .association owner r →
      owner < bound.slot ∧
      ∃ j, q.joins[k]? = some j ∧ (∃ clause, j.Given clause) ∧
        ∀ clause, j.Given clause → ∃ user,
          Query.bind { q with joins := q.joins.set k (j.onTable r.related clause) } args c =
            .ok { bq with joins := bq.joins.set k (bound.onTable r.related user) } ∧
          bound.on =
            if user.isTruth then
              ⟨.eq (.field bound.slot r.relatedKey) (.field owner r.ownerKey), []⟩
            else
              ⟨.binary .and (.eq (.field bound.slot r.relatedKey) (.field owner r.ownerKey))
                user.term, user.params⟩ := by
  intro k bound owner r hk hs
  obtain ⟨bounds, t, hjoins, rfl⟩ := Binder.bind_eq_ok_iff.mp h
  obtain ⟨j, before, after, hj, hbound, hreplace⟩ := Binder.exists_step_of_bindJoins hjoins hk
  have hmem : j ∈ q.joins := List.mem_of_getElem? hj
  obtain ⟨c', p, i, offset, -, horigin⟩ := hq.comesFrom j hmem
  have howner := Binder.owner_lt_of_bindJoin (hq.layout.wellPlaced j hmem) hbound hs
  refine ⟨howner, j, hj, Join.exists_given horigin, ?_⟩
  intro clause hclause
  obtain ⟨user, huser, hon⟩ := Binder.bindJoin_onTable hbound hs hclause
  have harity : Join.totalArity (q.joins.set k (j.onTable r.related clause)) =
      Join.totalArity q.joins := Join.totalArity_set hj rfl
  have hrun := hreplace _ _ huser
  rw [← harity] at hrun
  exact ⟨user, Binder.bind_eq_ok_iff.mpr ⟨_, t, hrun, rfl⟩, hon⟩

namespace Sample

/-- `join(query, :inner, [p], a in assoc(p, ^0), on: ^1)`. -/
def author : Invocation where
  qualifier := .atom "inner"
  binding := .list [.var "p"]
  target := .binary .mem (.var "a") (.call "assoc" [.var "p", .interpolate (.positional 0)])
  options := some (.keyword [("on", .interpolate (.positional 1))])

def authorJoin (slot : Nat) : Join where
  qualifier := .inner
  source := .association ⟨0, .deferred (.positional 0), none⟩
  on := .deferred (.positional 1) none
  joinAlias := .none
  tablePrefix := none
  hints := none
  extensions := .empty
  slot := slot
  arity := 1
  schemas := [none]

def postsWithAuthor : Query := ⟨{ source := { schema := some "Post" } }, [authorJoin 1], .empty⟩

def postsWithAuthorTwice : Query :=
  ⟨{ source := { schema := some "Post" } }, [authorJoin 1, authorJoin 2], .empty⟩

/-- Knows that a post belongs to a user as its author. -/
def blog : Compiler where
  view := fun name =>
    if name = "Post" then
      some (Schema.belongsTo { name := "Post", source := "posts" } "author" "User" "author_id")
    else if name = "User" then some { name := "User", source := "users" }
    else none

/-- The author, who must be active. -/
def activeAuthor : Arguments :=
  .positional [.value (.atom "author"), .value (.map [("active", .boolean true)])]

def boundAuthor (slot : Nat) : BoundJoin where
  qualifier := .inner
  source := .association 0 ⟨"Post", "author", .one, "User", "users", "author_id", "id"⟩
  on := ⟨.binary .and (.eq (.field slot "id") (.field 0 "author_id"))
    (.eq (.field slot "active") (.typed (.literal (.boolean true)) (.field slot "active"))), []⟩
  aliasName := none
  tablePrefix := none
  hints := []
  extensions := .empty
  slot := slot
  arity := 1

theorem reachable_postsWithAuthor : postsWithAuthor.Reachable :=
  .join compiler author (.ofTableRef { schema := some "Post" }) (fun _ h => nomatch h) rfl

theorem reachable_postsWithAuthorTwice : postsWithAuthorTwice.Reachable :=
  .absorb reachable_postsWithAuthor reachable_postsWithAuthor rfl

theorem bind_authors : postsWithAuthorTwice.bind activeAuthor blog =
    .ok ⟨{ source := { schema := some "Post" } }, [boundAuthor 1, boundAuthor 2], .empty⟩ := rfl

/-- Absorbed to slot 2 and found when the query is bound, the author is still found by their own
post alone and once; without the association, the join is bound to the supplied condition. -/
theorem association_conjoined_once_author :
    postsWithAuthorTwice.Reachable ∧
      ∃ clause user, (authorJoin 2).Given clause ∧ user.isTruth = false ∧
        Query.bind { postsWithAuthorTwice with
            joins := [authorJoin 1, (authorJoin 2).onTable "User" clause] } activeAuthor blog =
          .ok ⟨{ source := { schema := some "Post" } },
            [boundAuthor 1, (boundAuthor 2).onTable "User" user], .empty⟩ ∧
        (boundAuthor 2).on = ⟨.binary .and (.eq (.field 2 "id") (.field 0 "author_id")) user.term,
          user.params⟩ := by
  have h := reachable_postsWithAuthorTwice.association_conjoined_once bind_authors
  obtain ⟨-, j, hj, ⟨clause, hclause⟩, hall⟩ := h 1 (boundAuthor 2) 0 _ rfl rfl
  cases hj
  obtain ⟨user, hbind, hon⟩ := hall clause hclause
  refine ⟨reachable_postsWithAuthorTwice, clause, user, hclause, ?_⟩
  cases htruth : user.isTruth with
  | true =>
    rw [if_pos htruth] at hon
    cases hon
  | false =>
    simp only [htruth, Bool.false_eq_true, ↓reduceIte] at hon
    exact ⟨rfl, hbind, hon⟩

end Sample

end StagedJoin
