import StagedJoin.Proofs.Bound.Depth

/-!
Binding comes to an end whatever the arguments refer to, themselves and each other
included. It is described here without a bound on the depth: a query yields an
outcome once all queries inside it do. A query inside another one fills the slots of
one join, so it has fewer slots than the query around it; that carries the
induction, keeps the nesting below the number of slots of the outermost query, and
refuses a query that is supplied for a subquery of its own.
-/
namespace StagedJoin

namespace Binder

/-- Binds the joins of a query behind its base; `inner` binds the queries of its subqueries. -/
def bindWith (b : Binder) (inner : Query → Except Failure BoundQuery) (q : Query) :
    Except Failure BoundQuery :=
  (b.bindJoins inner ⟨q.aliases, [q.base.source.schema]⟩ q.joins).map
    fun r => ⟨q.base, r.1, r.2.aliases⟩

/-- `sub` is the query of a subquery of `q`, given or supplied. -/
inductive Nests (b : Binder) (q sub : Query) : Prop
  | subquery {j : Join} {query : Staged Query} {tablePrefix : Option (Staged String)}
      (hj : j ∈ q.joins) (hs : j.source = .subquery query tablePrefix)
      (hsub : b.subqueryOf j.arity query = .ok sub) : Nests b q sub

/-- `sub` is bound `depth` levels inside `q`. -/
inductive NestsAt (b : Binder) (q : Query) : Nat → Query → Prop
  | refl : NestsAt b q 0 q
  | inside {depth : Nat} {mid sub : Query} :
      NestsAt b q depth mid → b.Nests mid sub → NestsAt b q (depth + 1) sub

/-- Binding comes to an end at `q` with an outcome: first at every query inside it, whose outcomes
`inner` holds, and then at `q` itself. -/
inductive Yields (b : Binder) : Query → Except Failure BoundQuery → Prop
  | step {q : Query} {inner : Query → Except Failure BoundQuery}
      (h : ∀ sub, b.Nests q sub → Yields b sub (inner sub)) : Yields b q (b.bindWith inner q)

variable {b : Binder} {inner inner' : Query → Except Failure BoundQuery} {q sub : Query}

/-! ## Queries inside others -/

theorem Nests.reachable_and_lt (hargs : b.arguments.Reachable) (hq : q.Reachable)
    (h : b.Nests q sub) : sub.Reachable ∧ sub.slotCount < q.slotCount := by
  obtain ⟨hj, hs, hsub⟩ := h
  obtain ⟨hreach, hcount⟩ := subqueryOf_fits hargs hq hj hs hsub
  have hle := Join.arity_le_totalArity hj
  have hslots : q.slotCount = 1 + Join.totalArity q.joins := rfl
  exact ⟨hreach, by omega⟩

/-- Every level takes at least one slot away. -/
theorem NestsAt.reachable_and_le (hargs : b.arguments.Reachable) (hq : q.Reachable) {depth : Nat}
    (h : b.NestsAt q depth sub) : sub.Reachable ∧ sub.slotCount + depth ≤ q.slotCount := by
  induction h with
  | refl => exact ⟨hq, Nat.le_refl _⟩
  | inside _ hnests ih =>
    obtain ⟨hmid, hle⟩ := ih
    obtain ⟨hsub, hlt⟩ := hnests.reachable_and_lt hargs hmid
    exact ⟨hsub, by omega⟩

/-! ## Outcomes -/

theorem bindWith_congr (h : ∀ sub, b.Nests q sub → inner sub = inner' sub) :
    b.bindWith inner q = b.bindWith inner' q := by
  have hsource : ∀ j ∈ q.joins, ∀ slots,
      b.bindSource inner slots j = b.bindSource inner' slots j := by
    intro j hj slots
    apply bindSource_eq_of_subquery
    intro query tablePrefix sub hs hsub
    exact h sub (.subquery hj hs hsub)
  unfold bindWith
  rw [bindJoins_eq_of_bindSource hsource]

/-- Binding calls itself for the queries inside a query; the bound on the depth has no part in it. -/
theorem bind_eq_bindWith_bind (hargs : b.arguments.Reachable) (hq : q.Reachable) :
    b.bind q = b.bindWith b.bind q := by
  have hdepth : b.bind q = b.bindWith (b.bindWithin (Join.totalArity q.joins)) q := b.bind_eq q
  rw [hdepth]
  apply bindWith_congr
  intro sub hsub
  obtain ⟨hreach, hlt⟩ := hsub.reachable_and_lt hargs hq
  have hslots : q.slotCount = 1 + Join.totalArity q.joins := rfl
  exact bindWithin_eq_bind hargs hreach (by omega)

theorem yields_bind (hargs : b.arguments.Reachable) (hq : q.Reachable) : b.Yields q (b.bind q) := by
  induction hn : q.slotCount using Nat.strongRecOn generalizing q with
  | ind n ih =>
    rw [bind_eq_bindWith_bind hargs hq]
    refine .step fun sub hsub => ?_
    obtain ⟨hreach, hlt⟩ := hsub.reachable_and_lt hargs hq
    rw [hn] at hlt
    exact ih sub.slotCount hlt hreach rfl

theorem Yields.eq_bind (hargs : b.arguments.Reachable) (hq : q.Reachable)
    {outcome : Except Failure BoundQuery} (h : b.Yields q outcome) : b.bind q = outcome := by
  induction h with
  | @step q inner _ ih =>
    rw [bind_eq_bindWith_bind hargs hq]
    apply bindWith_congr
    intro sub hsub
    exact ih sub hsub (hsub.reachable_and_lt hargs hq).1

/-! ## A query supplied for a subquery of its own -/

variable {slots slots' : BoundSlots} {j : Join} {p : Placeholder}
  {tablePrefix : Option (Staged String)}

theorem bindSource_of_own (hj : j ∈ q.joins) (hs : j.source = .subquery (.deferred p) tablePrefix)
    (harg : b.arguments.get? p = some (.queryable (.query q))) :
    b.bindSource inner slots j = .error (.binding (.arityMismatch q.slotCount j.arity) p.text) := by
  have hle := Join.arity_le_totalArity hj
  have hslots : q.slotCount = 1 + Join.totalArity q.joins := rfl
  have hne : ¬ q.slotCount = j.arity := by omega
  have hsub : b.subqueryOf j.arity (.deferred p) =
      .error (.binding (.arityMismatch q.slotCount j.arity) p.text) := by
    simp only [subqueryOf, Arguments.require_eq_ok_iff.mpr harg, ok_bind, hne, ↓reduceIte]
  simp only [bindSource, hs, hsub, error_bind]

theorem bindJoins_cons_of_error {failure : Failure} {rest : List Join}
    (hslot : j.slot = slots.schemas.length) (h : b.bindSource inner slots j = .error failure) :
    b.bindJoins inner slots (j :: rest) = .error failure := by
  have hjoin : b.bindJoin inner slots j = .error failure := by
    simp only [bindJoin, hslot, ne_eq, not_true_eq_false, ↓reduceIte, h, error_bind]
  simp only [bindJoins, hjoin]

theorem slot_eq_of_bindJoins (hq : q.Layout) {before after : List Join}
    (hjoins : q.joins = before ++ j :: after) {aliases : OrderedMap Nat} {bounds : List BoundJoin}
    (h : b.bindJoins inner ⟨aliases, [q.base.source.schema]⟩ before = .ok (bounds, slots)) :
    j.slot = slots.schemas.length := by
  have hslot : j.slot = 1 + Join.totalArity (q.joins.take before.length) := by
    refine hq.slot_eq before.length j ?_
    rw [hjoins, List.getElem?_append_right (Nat.le_refl _), Nat.sub_self, List.getElem?_cons_zero]
  rw [hjoins, List.take_left] at hslot
  rw [hslot, schemas_of_bindJoins h, List.length_append, length_schemas_of_bindJoins h]
  rfl

/-- The join is refused as soon as those before it are bound, and the query with it. -/
theorem bindWith_of_own (hq : q.Layout) {before after : List Join}
    (hjoins : q.joins = before ++ j :: after)
    (hs : j.source = .subquery (.deferred p) tablePrefix)
    (harg : b.arguments.get? p = some (.queryable (.query q))) {bounds : List BoundJoin}
    (h : b.bindJoins inner ⟨q.aliases, [q.base.source.schema]⟩ before = .ok (bounds, slots)) :
    b.bindWith inner q = .error (.binding (.arityMismatch q.slotCount j.arity) p.text) := by
  have hj : j ∈ q.joins := by
    rw [hjoins]
    exact List.mem_append_right _ List.mem_cons_self
  have hslot := slot_eq_of_bindJoins hq hjoins h
  have hrest : b.bindJoins inner slots (j :: after) =
      .error (.binding (.arityMismatch q.slotCount j.arity) p.text) :=
    bindJoins_cons_of_error hslot (bindSource_of_own hj hs harg)
  unfold bindWith
  rw [hjoins, bindJoins_append_of_ok h, hrest]
  rfl

theorem bindWith_ne_ok_of_own (hq : q.Layout) (hj : j ∈ q.joins)
    (hs : j.source = .subquery (.deferred p) tablePrefix)
    (harg : b.arguments.get? p = some (.queryable (.query q))) (bound : BoundQuery) :
    b.bindWith inner q ≠ .ok bound := by
  obtain ⟨before, after, hjoins⟩ := List.append_of_mem hj
  cases h : b.bindJoins inner ⟨q.aliases, [q.base.source.schema]⟩ before with
  | ok r =>
    rw [bindWith_of_own hq hjoins hs harg h]
    intro he
    cases he
  | error failure =>
    unfold bindWith
    rw [hjoins, bindJoins_append_of_error h]
    intro he
    cases he

end Binder

/-- Binding a reachable query to reachable ones comes to an end, with the outcome that `bind` gives
and no other. A query inside another has fewer slots, so that the nesting is not as deep as the
outermost query has slots; and a query that is supplied for one of its own subqueries is refused
there. -/
theorem Query.Reachable.bind_terminates {q : Query} {args : Arguments} {c : Compiler}
    (hq : q.Reachable) (hargs : args.Reachable) :
    (∀ outcome, Binder.Yields ⟨c, args⟩ q outcome ↔ q.bind args c = outcome) ∧
    ∀ depth outer, Binder.NestsAt ⟨c, args⟩ q depth outer →
      depth < q.slotCount ∧
      (∀ sub, Binder.Nests ⟨c, args⟩ outer sub → sub.slotCount < outer.slotCount) ∧
      ∀ before j after p tablePrefix, outer.joins = before ++ j :: after →
        j.source = .subquery (.deferred p) tablePrefix →
        args.get? p = some (.queryable (.query outer)) →
        (∀ bound, outer.bind args c ≠ .ok bound) ∧
        ∀ bounds slots, Binder.bindJoins ⟨c, args⟩ (fun inner => inner.bind args c)
            ⟨outer.aliases, [outer.base.source.schema]⟩ before = .ok (bounds, slots) →
          ∃ failure, outer.bind args c = .error failure ∧ failure.code = "JOIN_001" := by
  let b : Binder := ⟨c, args⟩
  have hb : b.arguments.Reachable := hargs
  refine ⟨?_, ?_⟩
  · intro outcome
    constructor
    · intro h
      exact h.eq_bind hb hq
    · rintro rfl
      exact Binder.yields_bind hb hq
  · intro depth outer hat
    obtain ⟨houter, hle⟩ := hat.reachable_and_le hb hq
    have hpos := outer.slotCount_pos
    refine ⟨by omega, fun sub hsub => (hsub.reachable_and_lt hb houter).2, ?_⟩
    intro before j after p tablePrefix hjoins hs harg
    have hbind : outer.bind args c = b.bindWith b.bind outer :=
      Binder.bind_eq_bindWith_bind hb houter
    rw [hbind]
    have hj : j ∈ outer.joins := by
      rw [hjoins]
      exact List.mem_append_right _ List.mem_cons_self
    refine ⟨Binder.bindWith_ne_ok_of_own houter.layout hj hs harg, ?_⟩
    intro bounds slots hbefore
    exact ⟨_, Binder.bindWith_of_own houter.layout hjoins hs harg hbefore, rfl⟩

namespace Sample

/-- `join(query, :inner, [], vars in subquery(^index))`. -/
def subqueryOf (vars : Expr) (index : Nat) : Invocation where
  qualifier := .atom "inner"
  binding := .list []
  target := .binary .mem vars (.call "subquery" [.interpolate (.positional index)])

def subqueryJoin (index arity : Nat) : Join where
  qualifier := .inner
  source := .subquery (.deferred (.positional index)) none
  on := .compiled .truth
  joinAlias := .none
  tablePrefix := none
  hints := none
  extensions := .empty
  slot := 1
  arity := arity
  schemas := List.replicate arity none

/-- One slot for the query that is supplied as `^0`. -/
def snake : Query := ⟨posts.base, [subqueryJoin 0 1], .empty⟩

/-- Two slots for the query that is supplied as `^1`. -/
def aroundSnake : Query := ⟨posts.base, [subqueryJoin 1 2], .empty⟩

/-- The same query for both subqueries, its own among them. -/
def snakes : Arguments := .positional [.queryable (.query snake), .queryable (.query snake)]

theorem reachable_snake : snake.Reachable :=
  .join compiler (subqueryOf (.var "x") 0) (.ofTableRef _) (fun _ h => nomatch h) rfl

theorem reachable_aroundSnake : aroundSnake.Reachable :=
  .join compiler (subqueryOf (.list [.var "x", .var "y"]) 1) (.ofTableRef _)
    (fun _ h => nomatch h) rfl

theorem reachable_snakes : snakes.Reachable := by
  intro p q h
  rcases p with (_ | _ | index) | name
  · cases h
    exact reachable_snake
  · cases h
    exact reachable_snake
  · cases h
  · cases h

/-- Inside the outer query, one level down, the query that bites its own tail is refused. -/
theorem bind_terminates_snake :
    aroundSnake.Reachable ∧ snakes.Reachable ∧
      Binder.Yields ⟨compiler, snakes⟩ aroundSnake
        (.error (.binding (.arityMismatch 2 1) "^0")) ∧
      Binder.NestsAt ⟨compiler, snakes⟩ aroundSnake 1 snake ∧
      ∃ failure, snake.bind snakes compiler = .error failure ∧ failure.code = "JOIN_001" := by
  obtain ⟨hyields, hnests⟩ := reachable_aroundSnake.bind_terminates (c := compiler) reachable_snakes
  have hinside : Binder.NestsAt ⟨compiler, snakes⟩ aroundSnake 1 snake :=
    .inside .refl (.subquery List.mem_cons_self rfl rfl)
  obtain ⟨-, -, hown⟩ := hnests 1 snake hinside
  refine ⟨reachable_aroundSnake, reachable_snakes, (hyields _).mpr rfl, hinside, ?_⟩
  exact (hown [] (subqueryJoin 0 1) [] (.positional 0) none rfl rfl rfl).2 [] _ rfl

end Sample

end StagedJoin
