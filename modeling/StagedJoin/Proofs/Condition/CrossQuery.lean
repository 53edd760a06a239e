import StagedJoin.Condition.Lowering
import StagedJoin.Proofs.Condition.Nodes
import StagedJoin.Proofs.Outcome

/-!
Conditions that need a second query. The check refuses an expression for the first of its
nodes that does, and each of the three ways to a condition asks it before the compiler: so
compilers that differ only on such expressions make the same clauses.
-/
namespace StagedJoin

namespace Expr

/-! ## The check -/

/-- The nodes that need a query of their own, with the reason why they are refused. -/
inductive NeedsQuery : Expr → String → Prop
  | query (q : Query) : NeedsQuery (.query q) noSubqueries
  | exists (args : List Expr) : NeedsQuery (.call "exists" args) noExists
  | subquery (args : List Expr) : NeedsQuery (.call "subquery" args) noSubqueries

/-- The node belongs to the query that it stands in. -/
def WithinQuery (n : Expr) : Prop := ∀ reason, ¬ n.NeedsQuery reason

/-- No node of the expression needs a query of its own. -/
def SingleQuery (e : Expr) : Prop := ∀ n ∈ e.nodes, n.WithinQuery

/-- The first node that needs a query of its own, with the reason. -/
def FirstNeedsQuery (e part : Expr) (reason : String) : Prop :=
  FirstFault WithinQuery (fun n (r : Expr × String) => n = r.1 ∧ n.NeedsQuery r.2) e.nodes
    (part, reason)

/-- The refusal of a node that needs a query of its own. -/
def crossQueryFailure (part : Expr) (reason : String) : Failure :=
  .onClause (reason ++ ", got: `" ++ part.text ++ "`") part.text

/-- A search for a node that needs a query of its own is judged by the nodes. -/
abbrev Searches (nodes : List Expr) (found : Option (Expr × String)) : Prop :=
  Judged WithinQuery (fun n r => n = r.1 ∧ n.NeedsQuery r.2) nodes found

theorem withinQuery_call {function : String} {args : List Expr} (hexists : function ≠ "exists")
    (hsubquery : function ≠ "subquery") : (Expr.call function args).WithinQuery := by
  intro reason h
  generalize hn : Expr.call function args = n at h
  cases h with
  | query => cases hn
  | «exists» => exact hexists (Expr.call.inj hn).1
  | subquery => exact hsubquery (Expr.call.inj hn).1

mutual

theorem searches_crossQuery? : (e : Expr) → Searches e.nodes e.crossQuery?
  | .query q => .here ⟨rfl, .query q⟩
  | .call function args => by
    rw [crossQuery?]
    split
    · rename_i h
      subst h
      exact .here ⟨rfl, .exists args⟩
    · rename_i hexists
      split
      · rename_i h
        subst h
        exact .here ⟨rfl, .subquery args⟩
      · rename_i hsubquery
        exact .cons (withinQuery_call hexists hsubquery) (searches_crossQueryItem? args)
  | .binary op left right => by
    have hleft := searches_crossQuery? left
    rw [crossQuery?]
    refine .cons nofun ?_
    split
    · rename_i h
      rw [h] at hleft
      exact hleft.append_some
    · rename_i h
      rw [h] at hleft
      exact .behind hleft (searches_crossQuery? right)
  | .not e => .cons nofun (searches_crossQuery? e)
  | .list items => .cons nofun (searches_crossQueryItem? items)
  | .tuple items => .cons nofun (searches_crossQueryItem? items)
  | .keyword pairs => .cons nofun (searches_crossQueryPair? pairs)
  | .map pairs => .cons nofun (searches_crossQueryPair? pairs)
  | .literal _ => .single nofun
  | .atom _ => .single nofun
  | .var _ => .single nofun
  | .ellipsis => .single nofun
  | .field _ _ => .single nofun
  | .schema _ => .single nofun
  | .interpolate _ => .single nofun

theorem searches_crossQueryItem? :
    (items : List Expr) → Searches (itemNodes items) (crossQueryItem? items)
  | [] => .nil
  | e :: rest => by
    have he := searches_crossQuery? e
    rw [crossQueryItem?, itemNodes]
    split
    · rename_i h
      rw [h] at he
      exact he.append_some
    · rename_i h
      rw [h] at he
      exact .behind he (searches_crossQueryItem? rest)

theorem searches_crossQueryPair? :
    (pairs : List (String × Expr)) → Searches (pairNodes pairs) (crossQueryPair? pairs)
  | [] => .nil
  | (_, e) :: rest => by
    have he := searches_crossQuery? e
    rw [crossQueryPair?, pairNodes]
    split
    · rename_i h
      rw [h] at he
      exact he.append_some
    · rename_i h
      rw [h] at he
      exact .behind he (searches_crossQueryPair? rest)

end

theorem NeedsQuery.unique {n : Expr} {reason reason' : String} (h : n.NeedsQuery reason)
    (h' : n.NeedsQuery reason') : reason = reason' := by
  cases h with
  | query => cases h'; rfl
  | «exists» args =>
    generalize hn : Expr.call "exists" args = n at h'
    cases h' <;> simp_all
  | subquery args =>
    generalize hn : Expr.call "subquery" args = n at h'
    cases h' <;> simp_all

theorem crossQuery?_eq_none_iff {e : Expr} : e.crossQuery? = none ↔ e.SingleQuery :=
  (searches_crossQuery? e).eq_none_iff fun _ _ hpass h => hpass _ h.2

theorem crossQuery?_eq_some_iff {e part : Expr} {reason : String} :
    e.crossQuery? = some (part, reason) ↔ e.FirstNeedsQuery part reason := by
  refine (searches_crossQuery? e).eq_some_iff (fun _ _ hpass h => hpass _ h.2) ?_
  rintro n ⟨part, reason⟩ ⟨part', reason'⟩ ⟨rfl, h⟩ ⟨rfl, h'⟩
  exact Prod.ext rfl (h.unique h')

theorem rejectCrossQuery_eq_ok_iff {e : Expr} :
    e.rejectCrossQuery = .ok () ↔ e.SingleQuery := by
  rw [← crossQuery?_eq_none_iff, rejectCrossQuery]
  cases e.crossQuery? <;> simp

theorem rejectCrossQuery_eq_error_iff {e : Expr} {f : Failure} :
    e.rejectCrossQuery = .error f ↔
      ∃ part reason, e.FirstNeedsQuery part reason ∧ f = crossQueryFailure part reason := by
  simp only [← crossQuery?_eq_some_iff, rejectCrossQuery]
  cases e.crossQuery? with
  | none => simp
  | some found =>
    obtain ⟨part, reason⟩ := found
    constructor
    · rintro h
      cases h
      exact ⟨part, reason, rfl, rfl⟩
    · rintro ⟨_, _, h, rfl⟩
      cases h
      rfl

end Expr

/-! ## What compilers are asked -/

/-- Two compilers answer alike wherever no second query is needed. -/
def ConditionCompiler.AgreesOnSingle (compile compile' : ConditionCompiler) : Prop :=
  ∀ ctx count (e : Expr), e.SingleQuery → compile ctx count e = compile' ctx count e

namespace Condition

variable {compile compile' : ConditionCompiler}

/-- Behind the check the compilers are asked for nothing on which they differ. -/
theorem checked_congr {γ : Type} (h : compile.AgreesOnSingle compile') (ctx : Context)
    (count : Nat) (e : Expr) (next : Compiled → Except Failure γ) :
    (e.rejectCrossQuery >>= fun _ => compile ctx count e >>= next) =
      (e.rejectCrossQuery >>= fun _ => compile' ctx count e >>= next) := by
  cases hcheck : e.rejectCrossQuery with
  | error f => rfl
  | ok u => rw [ok_bind, ok_bind, h ctx count e (Expr.rejectCrossQuery_eq_ok_iff.mp hcheck)]

theorem ofExpr_congr (h : compile.AgreesOnSingle compile') (ctx : Context) (e : Expr) :
    ofExpr compile ctx e = ofExpr compile' ctx e :=
  checked_congr h ctx 0 e _

theorem keywordValue_congr (h : compile.AgreesOnSingle compile') (ctx : Context)
    (slot count : Nat) (name : String) (e : Expr) :
    keywordValue compile ctx slot count name e = keywordValue compile' ctx slot count name e := by
  unfold keywordValue
  split
  · rfl
  · rfl
  · simpa using checked_congr h ctx count e pure

theorem keywordConjunction_congr (h : compile.AgreesOnSingle compile') (ctx : Context)
    (slot : Nat) (before : Conjunction) (pairs : List (String × Expr)) :
    keywordConjunction compile ctx slot before pairs =
      keywordConjunction compile' ctx slot before pairs := by
  induction pairs generalizing before with
  | nil => rfl
  | cons p rest ih =>
    obtain ⟨name, e⟩ := p
    simp only [keywordConjunction, keywordValue_congr h, ih]

end Condition

theorem OnClause.ofExpr?_congr {compile compile' : ConditionCompiler}
    (h : compile.AgreesOnSingle compile') (ctx : Context) (slot : Nat) (on : Option Expr) :
    ofExpr? compile ctx slot on = ofExpr? compile' ctx slot on := by
  unfold ofExpr?
  split
  · rfl
  · rfl
  · rw [Condition.ofKeyword, Condition.ofKeyword, Condition.keywordConjunction_congr h]
  · rfl
  · rfl
  · rw [Condition.ofExpr_congr h]

end StagedJoin
