import StagedJoin.Proofs.Bound.Parts
import StagedJoin.Proofs.Query.Reachable

/-!
The bound on nested queries is never met. A subquery of a reachable query fills the
slots of its join, so it has fewer slots than the query around it; a query with no
more slots than the bound is bound in the same way whatever the bound is.
-/
namespace StagedJoin

/-- Every query among the arguments is reachable. -/
def Arguments.Reachable (args : Arguments) : Prop :=
  ∀ p q, args.get? p = some (.queryable (.query q)) → q.Reachable

/-- Every query among the arguments is built from invocations that satisfy `P`. -/
def Arguments.BuiltWith (P : Invocation → Prop) (args : Arguments) : Prop :=
  ∀ p q, args.get? p = some (.queryable (.query q)) → q.BuiltWith P

theorem Arguments.Reachable.builtWith {args : Arguments} (h : args.Reachable) :
    args.BuiltWith fun _ => True := fun p q hget => (h p q hget).builtWith

theorem Join.arity_le_totalArity {j : Join} {js : List Join} (h : j ∈ js) :
    j.arity ≤ totalArity js := by
  induction js with
  | nil => cases h
  | cons k rest ih =>
    rw [totalArity]
    rcases List.mem_cons.mp h with rfl | h
    · exact Nat.le_add_right _ _
    · exact Nat.le_trans (ih h) (Nat.le_add_left _ _)

namespace Binder

variable {b : Binder} {inner inner' : Query → Except Failure BoundQuery} {slots : BoundSlots}
  {j : Join} {q : Query}

/-- The query of a subquery is built as the query around it is and has the slots of its join. -/
theorem subqueryOf_builtWith {P : Invocation → Prop} (hargs : b.arguments.BuiltWith P)
    (hq : q.BuiltWith P) (hj : j ∈ q.joins) {query : Staged Query}
    {tablePrefix : Option (Staged String)} (hs : j.source = .subquery query tablePrefix)
    {sub : Query} (h : b.subqueryOf j.arity query = .ok sub) :
    sub.BuiltWith P ∧ sub.slotCount = j.arity := by
  cases query with
  | literal inner =>
    cases h
    have harity := (hq.reachable.layout.wellPlaced j hj).subquery_arity sub tablePrefix hs
    exact ⟨hq.subquery j hj sub tablePrefix hs, harity.symm⟩
  | deferred p =>
    obtain ⟨arg, harg, h⟩ := bind_eq_ok.mp h
    have hget := Arguments.require_eq_ok_iff.mp harg
    split at h
    · rename_i supplied
      split at h
      · cases h
        exact ⟨hargs p sub hget, ‹_›⟩
      · cases h
    · cases h

/-- The query of a subquery is reachable and has the slots of its join. -/
theorem subqueryOf_fits (hargs : b.arguments.Reachable) (hq : q.Reachable) (hj : j ∈ q.joins)
    {query : Staged Query} {tablePrefix : Option (Staged String)}
    (hs : j.source = .subquery query tablePrefix) {sub : Query}
    (h : b.subqueryOf j.arity query = .ok sub) : sub.Reachable ∧ sub.slotCount = j.arity := by
  obtain ⟨hbuilt, hcount⟩ := subqueryOf_builtWith hargs.builtWith hq.builtWith hj hs h
  exact ⟨hbuilt.reachable, hcount⟩

/-! ## Bounds that are met nowhere -/

theorem bindSource_eq_of_subquery
    (h : ∀ query tablePrefix sub, j.source = .subquery query tablePrefix →
      b.subqueryOf j.arity query = .ok sub → inner sub = inner' sub) :
    b.bindSource inner slots j = b.bindSource inner' slots j := by
  unfold bindSource
  cases hj : j.source
  case subquery query tablePrefix =>
    cases hsub : b.subqueryOf j.arity query with
    | error failure => simp only [hsub]; rfl
    | ok sub =>
      have hinner := h query tablePrefix sub hj hsub
      simp only [hsub, ok_bind, hinner]
  all_goals rfl

theorem bindJoins_eq_of_bindSource {js : List Join}
    (h : ∀ j ∈ js, ∀ slots, b.bindSource inner slots j = b.bindSource inner' slots j) :
    b.bindJoins inner slots js = b.bindJoins inner' slots js := by
  induction js generalizing slots with
  | nil => rfl
  | cons j rest ih =>
    have hjoin : b.bindJoin inner slots j = b.bindJoin inner' slots j := by
      unfold bindJoin
      rw [h j List.mem_cons_self slots]
    have hrest : ∀ t, b.bindJoins inner t rest = b.bindJoins inner' t rest :=
      fun t => ih fun k hk => h k (List.mem_cons_of_mem _ hk)
    simp only [bindJoins, hjoin, hrest]

/-- Two bounds that leave room for all slots of a query do not differ on it. -/
theorem bindWithin_eq_bindWithin (hargs : b.arguments.Reachable) {m n : Nat} (hq : q.Reachable)
    (hm : q.slotCount ≤ m) (hn : q.slotCount ≤ n) : b.bindWithin m q = b.bindWithin n q := by
  induction m generalizing n q with
  | zero =>
    rw [Query.slotCount] at hm
    omega
  | succ m ih =>
    rw [Query.slotCount] at hm hn
    obtain ⟨n, rfl⟩ : ∃ k, n = k + 1 := ⟨n - 1, by omega⟩
    have hsource : ∀ j ∈ q.joins, ∀ slots,
        b.bindSource (b.bindWithin m) slots j = b.bindSource (b.bindWithin n) slots j := by
      intro j hj slots
      apply bindSource_eq_of_subquery
      intro query tablePrefix sub hs hsub
      obtain ⟨hreach, hcount⟩ := subqueryOf_fits hargs hq hj hs hsub
      have hle := Join.arity_le_totalArity hj
      exact ih hreach (by omega) (by omega)
    simp only [bindWithin, bindJoins_eq_of_bindSource hsource]

/-- Binding a reachable query is binding it with any greater bound. -/
theorem bindWithin_eq_bind (hargs : b.arguments.Reachable) (hq : q.Reachable) {n : Nat}
    (hn : q.slotCount ≤ n) : b.bindWithin n q = b.bind q :=
  bindWithin_eq_bindWithin hargs hq hn (Nat.le_refl _)

end Binder

end StagedJoin
