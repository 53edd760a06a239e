import StagedJoin.Proofs.Query.Absorption

/-!
The queries that can be built, by any number of steps in any order and with any
compiler of conditions. All of them have the slot layout, and so have the queries
inside their subqueries. A join adds one join at the end, an absorption those of
the other query, moved; the joins that were there stay as they are.
-/
namespace StagedJoin

namespace Expr

mutual

/-- The queries that occur in an expression. -/
def queries : Expr → List Query
  | .query q => [q]
  | .call _ args => itemQueries args
  | .binary _ left right => left.queries ++ right.queries
  | .not e => e.queries
  | .keyword pairs => pairQueries pairs
  | .list items => itemQueries items
  | .tuple items => itemQueries items
  | .map pairs => pairQueries pairs
  | _ => []

def itemQueries : List Expr → List Query
  | [] => []
  | e :: rest => e.queries ++ itemQueries rest

def pairQueries : List (String × Expr) → List Query
  | [] => []
  | (_, e) :: rest => e.queries ++ pairQueries rest

end

end Expr

/-- A query that is built step by step from a table; a query inside the target of a join is
built in the same way. -/
inductive Query.Reachable : Query → Prop
  | ofTableRef (ref : TableRef) : (Query.ofTableRef ref).Reachable
  | withAlias {q : Query} (name : String) : q.Reachable → (q.withAlias name).Reachable
  | withPrefix {q : Query} (tablePrefix : String) :
      q.Reachable → (q.withPrefix tablePrefix).Reachable
  | join {q r : Query} (c : Compiler) (i : Invocation) :
      q.Reachable → (∀ inner ∈ i.target.queries, inner.Reachable) → c.join q i = .ok r → r.Reachable
  | absorb {q other r : Query} :
      q.Reachable → other.Reachable → q.absorb other = .ok r → r.Reachable

/-- Built step by step, every join from an invocation that satisfies `P`; so are the queries inside
the targets of joins, and those that are absorbed. -/
inductive Query.BuiltWith (P : Invocation → Prop) : Query → Prop
  | ofTableRef (ref : TableRef) : Query.BuiltWith P (Query.ofTableRef ref)
  | withAlias {q : Query} (name : String) : q.BuiltWith P → Query.BuiltWith P (q.withAlias name)
  | withPrefix {q : Query} (tablePrefix : String) :
      q.BuiltWith P → Query.BuiltWith P (q.withPrefix tablePrefix)
  | join {q r : Query} (c : Compiler) (i : Invocation) : q.BuiltWith P →
      (∀ inner ∈ i.target.queries, inner.BuiltWith P) → P i → c.join q i = .ok r →
      Query.BuiltWith P r
  | absorb {q other r : Query} :
      q.BuiltWith P → other.BuiltWith P → q.absorb other = .ok r → Query.BuiltWith P r

theorem Query.BuiltWith.reachable {P : Invocation → Prop} {q : Query} (h : q.BuiltWith P) :
    q.Reachable := by
  induction h with
  | ofTableRef ref => exact .ofTableRef ref
  | withAlias name _ ih => exact .withAlias name ih
  | withPrefix tablePrefix _ ih => exact .withPrefix tablePrefix ih
  | join c i _ _ _ hr ih ihinner => exact .join c i ih ihinner hr
  | absorb _ _ hr ih iho => exact .absorb ih iho hr

/-- Reachable queries are those that are built without any condition. -/
theorem Query.Reachable.builtWith {q : Query} (h : q.Reachable) : q.BuiltWith fun _ => True := by
  induction h with
  | ofTableRef ref => exact .ofTableRef ref
  | withAlias name _ ih => exact .withAlias name ih
  | withPrefix tablePrefix _ ih => exact .withPrefix tablePrefix ih
  | join c i _ _ hr ih ihinner => exact .join c i ih ihinner trivial hr
  | absorb _ _ hr ih iho => exact .absorb ih iho hr

/-! ## Comments on posts -/

namespace Sample

def posts : Query := .ofTable "posts"

/-- `join(query, :left, [p], c in Comment, on: c.post_id == p.id and c.score > ^0)`. -/
def comments : Invocation where
  qualifier := .atom "left"
  binding := .list [.var "p"]
  target := .binary .mem (.var "c") (.schema "Comment")
  options := some (.keyword [("on", .binary .and
    (.binary .eq (.field "c" "post_id") (.field "p" "id"))
    (.binary .gt (.field "c" "score") (.interpolate (.positional 0))))])

/-- Knows no schema, so that tags are left for binding. -/
def compiler : Compiler := { view := fun _ => none }

def commentsJoin (slot : Nat) : Join where
  qualifier := .left
  source := .table { schema := some "Comment" }
  on := .compiled
    ⟨.binary .and (.eq (.field slot "post_id") (.field 0 "id"))
      (.binary .gt (.field slot "score") (.param 0)),
      [⟨.deferred (.positional 0), .field slot "score"⟩]⟩
  joinAlias := .none
  tablePrefix := none
  hints := none
  extensions := .empty
  slot := slot
  arity := 1
  schemas := [some "Comment"]

def postsWithComments : Query := ⟨posts.base, [commentsJoin 1], .empty⟩

def postsWithCommentsTwice : Query := ⟨posts.base, [commentsJoin 1, commentsJoin 2], .empty⟩

theorem join_posts_comments : compiler.join posts comments = .ok postsWithComments := rfl

theorem absorb_comments : postsWithComments.absorb postsWithComments = .ok postsWithCommentsTwice :=
  rfl

theorem reachable_postsWithComments : postsWithComments.Reachable :=
  .join compiler comments (.ofTableRef _) (fun _ h => nomatch h) join_posts_comments

theorem reachable_postsWithCommentsTwice : postsWithCommentsTwice.Reachable :=
  .absorb reachable_postsWithComments reachable_postsWithComments absorb_comments

end Sample

namespace Query

variable {q r other : Query}

/-! ## Subqueries -/

/-- A subquery that is given stands in the expression of its source. -/
theorem mem_queries_of_ofExpr {ctx : SourceContext} {e : Expr} {sized : SizedSource}
    (h : JoinSource.ofExpr ctx e = .ok sized) {inner : Query} {p : Option (Staged String)}
    (hs : sized.source = .subquery (.literal inner) p) : inner ∈ e.queries := by
  have hgiven : ∀ {call e : Expr} {options : Option Expr},
      JoinSource.ofSubquery call e options = .ok sized → inner ∈ e.queries := by
    intro call e options h
    rcases JoinSource.ofSubquery_cases h with ⟨q, p, rfl, rfl⟩ | ⟨placeholder, p, rfl⟩ <;> cases hs
    exact List.mem_singleton.mpr rfl
  unfold JoinSource.ofExpr at h
  split at h
  case h_5 =>
    unfold JoinSource.ofQuery at h
    split at h <;> cases h
    cases hs
  case h_6 =>
    cases JoinSource.ofCall_eq_ok_iff.mp h with
    | subquery h => exact List.mem_append_left _ (hgiven h)
    | subqueryWith h => exact List.mem_append_left _ (hgiven h)
    | assoc h =>
      obtain ⟨slot, -, h⟩ := bind_eq_ok.mp h
      obtain ⟨name, -, h⟩ := bind_eq_ok.mp h
      obtain ⟨resolved, -, h⟩ := bind_eq_ok.mp h
      cases h
      cases hs
    | values h =>
      obtain ⟨source, rfl⟩ := JoinSource.exists_values_of_ofValues h
      cases hs
  all_goals
    cases h
    try cases hs

/-! ## The layout of every reachable query -/

theorem Reachable.layout (h : q.Reachable) : q.Layout := by
  induction h with
  | ofTableRef ref => exact layout_ofTableRef ref
  | withAlias name _ ih => exact ih.withAlias name
  | withPrefix tablePrefix _ ih => exact ih.withPrefix tablePrefix
  | join c i _ _ hr ih _ => exact ih.join hr
  | absorb _ _ hr ih iho => exact ih.absorb iho hr

/-- The target without its variables has the queries of the target. -/
theorem mem_queries_of_splitTarget {target source : Expr} {vars : JoinVars} {inner : Query}
    (h : JoinVars.splitTarget target = .ok (vars, source)) (hi : inner ∈ source.queries) :
    inner ∈ target.queries := by
  unfold JoinVars.splitTarget at h
  split at h
  · split at h <;> cases h
    rw [Expr.queries, List.mem_append]
    exact .inr hi
  · cases h
    exact hi

/-- The queries inside the subqueries of a query are built as the query is. -/
theorem BuiltWith.subquery {P : Invocation → Prop} (h : q.BuiltWith P) :
    ∀ j ∈ q.joins, ∀ inner p, j.source = .subquery (.literal inner) p → inner.BuiltWith P := by
  induction h with
  | ofTableRef ref =>
    intro j hj
    cases hj
  | withAlias name _ ih => exact ih
  | withPrefix tablePrefix _ ih => exact ih
  | join c i _ hinner _ hr ih _ =>
    obtain ⟨parts, happend⟩ := Compiler.join_eq_ok_iff.mp hr
    obtain ⟨-, aliases, -, rfl⟩ := append_eq_ok_iff.mp happend
    intro j hj inner p hs
    rcases List.mem_append.mp hj with hj | hj
    · exact ih j hj inner p hs
    · rw [List.mem_singleton.mp hj] at hs
      have hsource := mem_queries_of_ofExpr parts.sized_eq hs
      exact hinner inner (mem_queries_of_splitTarget parts.target_eq hsource)
  | @absorb q _ _ _ _ hr ih iho =>
    obtain ⟨-, -, moved, hjoins, hmoved⟩ := absorb_spec hr
    intro m hm inner p hs
    rw [hjoins] at hm
    rcases List.mem_append.mp hm with hm | hm
    · exact ih m hm inner p hs
    · obtain ⟨j, hj, hm⟩ := exists_left_of_forall₂ hmoved hm
      rw [hm.source_eq, JoinSource.shift_eq_subquery_iff] at hs
      exact iho j hj inner p hs

/-- The queries inside the subqueries of a reachable query are reachable. -/
theorem Reachable.subquery (h : q.Reachable) :
    ∀ j ∈ q.joins, ∀ inner p, j.source = .subquery (.literal inner) p → inner.Reachable :=
  fun j hj inner p hs => (h.builtWith.subquery j hj inner p hs).reachable

/-- Joins of a reachable query follow each other without a gap, and no condition, owner or alias
speaks of a slot that is not there; a further step leaves the joins that are there in place. -/
theorem Reachable.slots_laid_out (h : q.Reachable) :
    (∀ k j, q.joins[k]? = some j →
      1 ≤ j.arity ∧
      j.slot = 1 + Join.totalArity (q.joins.take k) ∧
      j.schemas.length = j.arity ∧
      (∀ s ∈ j.on.slots, s ≤ j.slot + j.arity - 1) ∧
      (∀ a, j.source = .association a → a.owner < j.slot) ∧
      (∀ inner p, j.source = .subquery (.literal inner) p → j.arity = inner.slotCount)) ∧
    q.slotSchemas.length = q.slotCount ∧
    (∀ e ∈ q.aliases.entries, e.2 < q.slotCount) ∧
    (∀ (c : Compiler) (i : Invocation) (r : Query), c.join q i = .ok r →
      ∃ j, c.build q i = .ok j ∧ r.joins = q.joins ++ [j] ∧
        r.slotCount = q.slotCount + j.arity) ∧
    (∀ other r : Query, q.absorb other = .ok r →
      r.slotCount = q.slotCount + (other.slotCount - 1) ∧
      ∃ moved, r.joins = q.joins ++ moved ∧
        List.Forall₂ (Join.MovesTo (q.slotCount - 1)) other.joins moved) := by
  have hlayout := h.layout
  refine ⟨?_, hlayout.length_slotSchemas, hlayout.alias_lt, ?_, ?_⟩
  · intro k j hj
    have hplaced := hlayout.wellPlaced j (List.mem_of_getElem? hj)
    exact ⟨hplaced.arity_pos, hlayout.slot_eq k j hj, hplaced.length_schemas, hplaced.on_le,
      hplaced.owner_lt, hplaced.subquery_arity⟩
  · intro c i r hr
    exact joins_of_join hr
  · intro other r hr
    exact ⟨slotCount_absorb hr, (absorb_spec hr).2.2⟩

end Query

/-- The second join of comments starts at slot 2 and keeps to the slots up to it. -/
theorem Sample.slots_laid_out_comments :
    postsWithCommentsTwice.Reachable ∧ postsWithCommentsTwice.slotSchemas.length = 3 ∧
      (commentsJoin 2).slot = 1 + Join.totalArity [commentsJoin 1] ∧
      ∀ s ∈ (commentsJoin 2).on.slots, s ≤ 2 := by
  have h := reachable_postsWithCommentsTwice.slots_laid_out
  have hjoin := h.1 1 (commentsJoin 2) rfl
  exact ⟨reachable_postsWithCommentsTwice, h.2.1, hjoin.2.1, hjoin.2.2.2.1⟩

end StagedJoin
