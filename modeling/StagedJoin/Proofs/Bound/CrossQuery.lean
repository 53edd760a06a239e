import StagedJoin.Proofs.Bound.Dynamic
import StagedJoin.Proofs.Condition.CrossQuery

/-!
No condition that needs a second query reaches the compiler of conditions, neither where a
join is built nor where a query is bound: another compiler that differs only there makes no
difference. Such a condition stops its join as soon as everything before it has been found.
-/
namespace StagedJoin

namespace Compiler

/-- The same but for the compiler of conditions. -/
def withConditions (c : Compiler) (compile : ConditionCompiler) : Compiler :=
  { c with conditions := compile }

/-! ## Building -/

section Building

variable {c : Compiler} {compile : ConditionCompiler} {q : Query} {i : Invocation}

theorem build_withConditions (h : compile.AgreesOnSingle c.conditions) (q : Query)
    (i : Invocation) : (c.withConditions compile).build q i = c.build q i := by
  simp only [build, onClause, withConditions, OnClause.ofExpr?_congr h]

theorem join_withConditions (h : compile.AgreesOnSingle c.conditions) (q : Query)
    (i : Invocation) : (c.withConditions compile).join q i = c.join q i := by
  rw [join, join, build_withConditions h]

/-- Everything that is found of an invocation before its `on` clause is looked at. -/
structure Prepared (c : Compiler) (q : Query) (i : Invocation) where
  qualifier : Qualifier
  options : JoinOptions
  scope : Scope
  vars : JoinVars
  target : Expr
  sized : SizedSource
  joined : Scope
  qualifier_eq : Qualifier.ofExpr c.config.qualifiers i.qualifier = .ok qualifier
  options_eq : JoinOptions.ofExpr? c.config.optionTable .join i.options = .ok options
  scope_eq : Scope.ofQuery q i.binding = .ok scope
  target_eq : JoinVars.splitTarget i.target = .ok (vars, target)
  fresh : scope.checkFresh vars = .ok ()
  sized_eq : JoinSource.ofExpr ⟨scope, vars, q.slotSchemas, c.view⟩ target = .ok sized
  arity_ok : vars.checkArity (vars.arityWith sized) i.target.text = .ok ()
  joined_eq : scope.extend vars (vars.arityWith sized) = .ok joined

namespace Prepared

/-- What is in view of the clause. -/
def context (p : c.Prepared q i) : Context :=
  ⟨p.joined, q.slotSchemas ++ p.sized.source.slotSchemas (p.vars.arityWith p.sized), c.view⟩

/-- Past the other checks an invocation fails as its clause does. -/
theorem join_eq_error (p : c.Prepared q i) {f : Failure}
    (h : c.onClause p.context q.slotCount p.sized.source p.options.on? = .error f) :
    c.join q i = .error ⟨f, i⟩ := by
  have hbuild : c.build q i = .error f := by
    refine bind_eq_error.mpr (.inr ⟨_, p.qualifier_eq, ?_⟩)
    refine bind_eq_error.mpr (.inr ⟨_, p.options_eq, ?_⟩)
    refine bind_eq_error.mpr (.inr ⟨_, p.scope_eq, ?_⟩)
    refine bind_eq_error.mpr (.inr ⟨_, p.target_eq, ?_⟩)
    refine bind_eq_error.mpr (.inr ⟨_, p.fresh, ?_⟩)
    refine bind_eq_error.mpr (.inr ⟨_, p.sized_eq, ?_⟩)
    refine bind_eq_error.mpr (.inr ⟨_, p.arity_ok, ?_⟩)
    refine bind_eq_error.mpr (.inr ⟨_, p.joined_eq, ?_⟩)
    exact bind_eq_error.mpr (.inl h)
  rw [join, hbuild]

/-- A boolean condition that needs a second query stops its join. -/
theorem join_eq_crossQueryFailure (p : c.Prepared q i) {e part : Expr} {reason : String}
    (hon : p.options.on? = some e) (he : e.IsCondition)
    (hpart : e.FirstNeedsQuery part reason) :
    c.join q i = .error ⟨part.crossQueryFailure reason, i⟩ := by
  have hcheck : e.rejectCrossQuery = .error (part.crossQueryFailure reason) :=
    Expr.rejectCrossQuery_eq_error_iff.mpr ⟨part, reason, hpart, rfl⟩
  apply p.join_eq_error
  rw [onClause, hon, he.ofExpr?, Condition.ofExpr, hcheck]
  rfl

end Prepared

/-- What comes before the clause is found alike with other options that pass their check. -/
def Parts.prepared (p : c.Parts q i) {e : Option Expr} (options : JoinOptions)
    (ho : JoinOptions.ofExpr? c.config.optionTable .join e = .ok options) :
    c.Prepared q { i with options := e } :=
  { p with options, options_eq := ho }

end Building

end Compiler

/-! ## Binding -/

namespace Binder

variable {c : Compiler} {compile : ConditionCompiler} {args : Arguments}

theorem dynamicCondition_withConditions (h : compile.AgreesOnSingle c.conditions)
    (slots : BoundSlots) (j : Join) (d : DynamicCondition) :
    dynamicCondition ⟨c.withConditions compile, args⟩ slots j d =
      dynamicCondition ⟨c, args⟩ slots j d := by
  simp only [dynamicCondition, Compiler.withConditions, Condition.ofExpr_congr h]

theorem onCondition_withConditions (h : compile.AgreesOnSingle c.conditions)
    (slots : BoundSlots) (j : Join) :
    onCondition ⟨c.withConditions compile, args⟩ slots j = onCondition ⟨c, args⟩ slots j := by
  simp only [onCondition, suppliedCondition, dynamicCondition_withConditions h]
  rfl

theorem bindOn_withConditions (h : compile.AgreesOnSingle c.conditions) (slots : BoundSlots)
    (j : Join) (late : Option Condition) :
    bindOn ⟨c.withConditions compile, args⟩ slots j late = bindOn ⟨c, args⟩ slots j late := by
  simp only [bindOn, onCondition_withConditions h]
  rfl

/-- Only the clause of a join is compiled while it is bound. -/
theorem bindJoin_withConditions (h : compile.AgreesOnSingle c.conditions)
    (inner : Query → Except Failure BoundQuery) (slots : BoundSlots) (j : Join) :
    bindJoin ⟨c.withConditions compile, args⟩ inner slots j =
      bindJoin ⟨c, args⟩ inner slots j := by
  simp only [bindJoin, bindOn_withConditions h]
  rfl

theorem bindJoins_withConditions (h : compile.AgreesOnSingle c.conditions)
    (inner : Query → Except Failure BoundQuery) (slots : BoundSlots) (joins : List Join) :
    bindJoins ⟨c.withConditions compile, args⟩ inner slots joins =
      bindJoins ⟨c, args⟩ inner slots joins := by
  induction joins generalizing slots with
  | nil => rfl
  | cons j rest ih => simp only [bindJoins, bindJoin_withConditions h, ih]

theorem bindWithin_withConditions (h : compile.AgreesOnSingle c.conditions) (depth : Nat) :
    bindWithin ⟨c.withConditions compile, args⟩ depth = bindWithin ⟨c, args⟩ depth := by
  induction depth with
  | zero => rfl
  | succ depth ih =>
    funext q
    simp only [bindWithin, ih, bindJoins_withConditions h]

end Binder

theorem Query.bind_withConditions {c : Compiler} {compile : ConditionCompiler}
    (h : compile.AgreesOnSingle c.conditions) (q : Query) (args : Arguments) :
    q.bind args (c.withConditions compile) = q.bind args c :=
  congrFun (Binder.bindWithin_withConditions h q.slotCount) q

/-! ## The compiler and second queries -/

/-- The check refuses exactly the expressions with a node that needs a second query, for the
first such node. Whatever a compiler of conditions would answer to one of them makes no
difference to any join or binding, and as a boolean condition it stops the join. -/
theorem Compiler.never_asked_for_second_query (c : Compiler) :
    (∀ e : Expr, e.rejectCrossQuery = .ok () ↔ ∀ n ∈ e.nodes, n.WithinQuery) ∧
      (∀ (e : Expr) (f : Failure), e.rejectCrossQuery = .error f ↔
        ∃ part reason, e.FirstNeedsQuery part reason ∧ f = part.crossQueryFailure reason) ∧
      (∀ (part : Expr) (reason : String), (part.crossQueryFailure reason).code = "JOIN_007") ∧
      (∀ compile : ConditionCompiler, compile.AgreesOnSingle c.conditions →
        (∀ q i, (c.withConditions compile).join q i = c.join q i) ∧
          ∀ (q : Query) args, q.bind args (c.withConditions compile) = q.bind args c) ∧
      ∀ q i (p : c.Prepared q i) (e : Expr), p.options.on? = some e → e.IsCondition →
        (∃ n ∈ e.nodes, ∃ reason, n.NeedsQuery reason) →
          ∃ part reason, e.FirstNeedsQuery part reason ∧
            c.join q i = .error ⟨part.crossQueryFailure reason, i⟩ := by
  refine ⟨fun _ => Expr.rejectCrossQuery_eq_ok_iff, fun _ _ => Expr.rejectCrossQuery_eq_error_iff,
    fun _ _ => rfl, fun compile h => ⟨join_withConditions h, Query.bind_withConditions h⟩, ?_⟩
  rintro q i p e hon he ⟨n, hn, reason, hneeds⟩
  cases hcheck : e.rejectCrossQuery with
  | ok u =>
    have hsingle : e.SingleQuery := Expr.rejectCrossQuery_eq_ok_iff.mp hcheck
    exact absurd hneeds (hsingle n hn reason)
  | error f =>
    obtain ⟨part, reason, hpart, -⟩ := Expr.rejectCrossQuery_eq_error_iff.mp hcheck
    exact ⟨part, reason, hpart, p.join_eq_crossQueryFailure hon he hpart⟩

namespace Sample

/-- `not is_nil(exists(c.id))`. -/
def hasNone : Expr := .not (.call "is_nil" [.call "exists" [.field "c" "id"]])

/-- Everything else is right about the comments for which something exists. -/
def preparedComments : binder.Prepared posts (commentsOn hasNone) :=
  commentsParts.prepared ⟨.ofList [("on", hasNone)]⟩ rfl

/-- The call is found two levels down, before the field in it. -/
theorem exists_refused_comments :
    ∃ part reason, hasNone.FirstNeedsQuery part reason ∧
      binder.join posts (commentsOn hasNone) =
        .error ⟨part.crossQueryFailure reason, commentsOn hasNone⟩ := by
  have hcondition : hasNone.IsCondition := ⟨nofun, nofun, nofun⟩
  have hneeds : Expr.call "exists" [.field "c" "id"] ∈ hasNone.nodes := by
    simp [hasNone, Expr.nodes, Expr.itemNodes]
  exact (Compiler.never_asked_for_second_query binder).2.2.2.2 posts (commentsOn hasNone)
    preparedComments hasNone rfl hcondition ⟨_, hneeds, _, .exists _⟩

end Sample

end StagedJoin
