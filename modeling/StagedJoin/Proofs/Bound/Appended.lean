import StagedJoin.Proofs.Bound.Aliases
import StagedJoin.Proofs.Bound.Widening

/-!
Appending a join and binding the query that results, as one step. The joins that were
there are bound first, as they are in the query itself, and the new one behind them.
-/
namespace StagedJoin

namespace Binder

variable {b : Binder} {q : Query} {j : Join} {aliases : OrderedMap Nat}

/-- How the queries inside a query are bound when a join has been appended to it. -/
def insideAppended (b : Binder) (q : Query) (j : Join) : Query → Except Failure BoundQuery :=
  b.bindWithin (Join.totalArity q.joins + j.arity)

theorem totalArity_append_singleton (q : Query) (j : Join) :
    Join.totalArity (q.joins ++ [j]) = Join.totalArity q.joins + j.arity := by
  rw [Join.totalArity_append, Join.totalArity, Join.totalArity, Nat.add_zero]

theorem bind_append_of_ok {bounds : List BoundJoin} {t : BoundSlots}
    (h : b.bindJoins (b.insideAppended q j) ⟨aliases, [q.base.source.schema]⟩ q.joins =
      .ok (bounds, t)) :
    b.bind ⟨q.base, q.joins ++ [j], aliases⟩ =
      (b.bindJoin (b.insideAppended q j) t j).map
        fun r => ⟨q.base, bounds ++ [r.1], r.2.aliases⟩ := by
  unfold insideAppended at h
  rw [bind_eq, totalArity_append_singleton]
  dsimp only
  rw [bindJoins_append_of_ok h]
  change _ = (b.bindJoin (b.bindWithin (Join.totalArity q.joins + j.arity)) t j).map _
  simp only [bindJoins]
  cases b.bindJoin (b.bindWithin (Join.totalArity q.joins + j.arity)) t j <;> rfl

/-- A query with one more join is bound as its joins are and then the last one. -/
theorem bind_append_eq_ok_iff {bound : BoundQuery} :
    b.bind ⟨q.base, q.joins ++ [j], aliases⟩ = .ok bound ↔
      ∃ bounds t last u,
        b.bindJoins (b.insideAppended q j) ⟨aliases, [q.base.source.schema]⟩ q.joins =
          .ok (bounds, t) ∧
        b.bindJoin (b.insideAppended q j) t j = .ok (last, u) ∧
        ⟨q.base, bounds ++ [last], u.aliases⟩ = bound := by
  cases h : b.bindJoins (b.insideAppended q j) ⟨aliases, [q.base.source.schema]⟩ q.joins with
  | error failure =>
    have herror : b.bind ⟨q.base, q.joins ++ [j], aliases⟩ = .error failure := by
      unfold insideAppended at h
      rw [bind_eq, totalArity_append_singleton]
      dsimp only
      rw [bindJoins_append_of_error h]
      rfl
    rw [herror]
    simp
  | ok r =>
    obtain ⟨bounds, t⟩ := r
    rw [bind_append_of_ok h, map_eq_ok]
    constructor
    · rintro ⟨⟨last, u⟩, hlast, rfl⟩
      exact ⟨bounds, t, last, u, rfl, hlast, rfl⟩
    · rintro ⟨bounds', t', last, u, hrun, hlast, rfl⟩
      cases hrun
      exact ⟨(last, u), hlast, rfl⟩

/-- The joins of a query that is bound are bound to the same when a join follows them. -/
theorem bindJoins_of_bind {bound : BoundQuery} (h : b.bind q = .ok bound) (j : Join) :
    ∃ bounds t,
      b.bindJoins (b.insideAppended q j) ⟨q.aliases, [q.base.source.schema]⟩ q.joins =
        .ok (bounds, t) ∧ ⟨q.base, bounds, t.aliases⟩ = bound := by
  obtain ⟨bounds, t, hjoins, he⟩ := bind_eq_ok_iff.mp h
  exact ⟨bounds, t, bindJoins_of_deeper (bindWithin_deeper (Nat.le_add_right _ _)) hjoins, he⟩

/-- Only a name that is supplied is registered in binding. -/
theorem aliases_of_bindJoins {inner : Query → Except Failure BoundQuery} {slots t : BoundSlots}
    {js : List Join} {bounds : List BoundJoin}
    (hknown : ∀ j ∈ js, ∀ p, j.joinAlias ≠ .explicit (.deferred p))
    (h : b.bindJoins inner slots js = .ok (bounds, t)) : t.aliases = slots.aliases := by
  have hnone : Join.suppliedNames b.arguments js = [] := by
    refine List.filterMap_eq_nil_iff.mpr fun j hj => ?_
    rw [JoinAlias.suppliedName?_of_known (hknown j hj), Option.map_none]
  refine OrderedMap.ext_entries ?_
  rw [(names_of_bindJoins h).2, hnone, List.append_nil]

/-- What is in view behind all joins is what the bound query shows. -/
theorem schemas_of_bindJoins_base {inner : Query → Except Failure BoundQuery}
    {bounds : List BoundJoin} {t : BoundSlots} {names : OrderedMap Nat}
    (h : b.bindJoins inner ⟨aliases, [q.base.source.schema]⟩ q.joins = .ok (bounds, t)) :
    t.schemas = BoundQuery.slotSchemas ⟨q.base, bounds, names⟩ := by
  rw [schemas_of_bindJoins h, BoundQuery.slotSchemas_eq]
  rfl

/-- The next slot is the one behind all joins. -/
theorem length_of_bindJoins_base {inner : Query → Except Failure BoundQuery}
    {schema : Option String} {bounds : List BoundJoin} {t : BoundSlots}
    (h : b.bindJoins inner ⟨aliases, [schema]⟩ q.joins = .ok (bounds, t)) :
    t.schemas.length = q.slotCount := by
  rw [schemas_of_bindJoins h, List.length_append, length_schemas_of_bindJoins h]
  rfl

end Binder

/-- Appends the join of an invocation and binds the result; the failure of either step is the
outcome. -/
def Query.joinAndBind (q : Query) (i : Invocation) (args : Arguments) (c binder : Compiler) :
    Except Failure BoundQuery :=
  match c.join q i with
  | .error f => .error f.cause
  | .ok r => r.bind args binder

namespace Query

variable {q : Query} {i : Invocation} {args : Arguments} {c binder : Compiler}

theorem joinAndBind_of_error {failure : Failure} (h : c.build q i = .error failure) :
    q.joinAndBind i args c binder = .error failure := by
  simp only [joinAndBind, Compiler.join, h]

theorem joinAndBind_of_append {r : Query} {j : Join} (h : c.build q i = .ok j)
    (hr : q.append j = .ok r) : q.joinAndBind i args c binder = r.bind args binder := by
  simp only [joinAndBind, Compiler.join, h, hr]
  rfl

/-- Both steps succeed exactly when the join is built, its name is free, and the joins that were
there and the new one are bound in a row. -/
theorem joinAndBind_eq_ok_iff {bound : BoundQuery} :
    q.joinAndBind i args c binder = .ok bound ↔
      ∃ (p : c.Parts q i) (aliases : OrderedMap Nat),
        registerAlias q.aliases q.slotCount p.joinAlias.name? = .ok aliases ∧
        Binder.bind ⟨binder, args⟩ ⟨q.base, q.joins ++ [p.join], aliases⟩ = .ok bound := by
  constructor
  · intro h
    unfold joinAndBind at h
    split at h
    · cases h
    · rename_i r hr
      obtain ⟨p, happend⟩ := Compiler.join_eq_ok_iff.mp hr
      obtain ⟨-, aliases, haliases, rfl⟩ := append_eq_ok_iff.mp happend
      exact ⟨p, aliases, haliases, h⟩
  · rintro ⟨p, aliases, haliases, h⟩
    unfold joinAndBind
    rw [p.join_eq_ok haliases]
    exact h

end Query
end StagedJoin
