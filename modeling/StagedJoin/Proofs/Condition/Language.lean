import StagedJoin.Condition.Compiler
import StagedJoin.Failure.Wording
import StagedJoin.Proofs.Condition.Nodes

/-!
The language of conditions. Whether the standard compiler takes an expression depends on
its nodes and on the variables in scope alone. What it takes is said here node by node,
and so is the failure with which it refuses every other node; an expression is taken when
all of its nodes are, and else refused for the first that is not.
-/
namespace StagedJoin

namespace Expr

/-! ## Nodes that are taken and refused -/

/-- The type name that stands for itself as the second argument of `type/2`. -/
def typeName? : Expr → Option String
  | .atom name => some name
  | .literal (.string name) => some name
  | _ => none

/-- The nodes that may stand in a condition. -/
inductive Admitted (scope : Scope) : Expr → Prop
  | literal (l : Literal) : Admitted scope (.literal l)
  | atom (name : String) : Admitted scope (.atom name)
  | field {owner : String} (name : String) (h : (scope.slot? owner).isSome) :
    Admitted scope (.field owner name)
  | interpolate (p : Placeholder) : Admitted scope (.interpolate p)
  | binary (op : Operator) (left right : Expr) : Admitted scope (.binary op left right)
  | not (e : Expr) : Admitted scope (.not e)
  | list (items : List Expr) : Admitted scope (.list items)
  | isNil (e : Expr) : Admitted scope (.call "is_nil" [e])
  | typed (e : Expr) {named : Expr} {name : String} {t : ColumnType}
    (hname : named.typeName? = some name) (ht : ColumnType.parse name = .ok t) :
    Admitted scope (.call "type" [e, named])

/-- The nodes that refer to a variable out of scope. -/
inductive Unbound (scope : Scope) : Expr → Prop
  | var {name : String} (h : scope.slot? name = none) : Unbound scope (.var name)
  | field {owner : String} (name : String) (h : scope.slot? owner = none) :
    Unbound scope (.field owner name)

/-- The calls of `type/2` with the name of no type. -/
inductive UnknownType : Expr → Prop
  | intro (e : Expr) {named : Expr} {name : String} (hname : named.typeName? = some name)
    (hparse : ∀ t, ColumnType.parse name ≠ .ok t) : UnknownType (.call "type" [e, named])

/-- The nodes with no place in a condition whatever their parts are. -/
inductive OutOfPlace : Expr → Prop
  | ellipsis : OutOfPlace .ellipsis
  | schema (name : String) : OutOfPlace (.schema name)
  | query (q : Query) : OutOfPlace (.query q)
  | keyword (pairs : List (String × Expr)) : OutOfPlace (.keyword pairs)
  | tuple (items : List Expr) : OutOfPlace (.tuple items)
  | map (pairs : List (String × Expr)) : OutOfPlace (.map pairs)

/-- The other nodes, each with the failure that refuses it. -/
inductive Refused (scope : Scope) : Expr → Failure → Prop
  | unboundOwner {owner : String} (name : String) (h : scope.slot? owner = none) :
    Refused scope (.field owner name)
      (.expression (.unboundVariable owner) (Expr.field owner name).text)
  | unboundVar {name : String} (h : scope.slot? name = none) :
    Refused scope (.var name) (.expression (.unboundVariable name) name)
  | bareVar {name : String} (h : (scope.slot? name).isSome) :
    Refused scope (.var name) (.expression (.unsupported (Expr.var name).text
      "a binding must be accessed through one of its fields") (Expr.var name).text)
  | unnamedType (e : Expr) {named : Expr} (h : named.typeName? = none) :
    Refused scope (.call "type" [e, named]) (.expression
      (.unsupported (Expr.call "type" [e, named]).text
        "`type/2` expects a type name as its second argument")
      (Expr.call "type" [e, named]).text)
  | unknownType (e : Expr) {named : Expr} {name : String} (hname : named.typeName? = some name)
    (hparse : ∀ t, ColumnType.parse name ≠ .ok t) :
    Refused scope (.call "type" [e, named]) (.expression (.unknownType name) named.text)
  | otherCall {function : String} {args : List Expr}
    (hnil : ¬ (function = "is_nil" ∧ args.length = 1))
    (htype : ¬ (function = "type" ∧ args.length = 2)) :
    Refused scope (.call function args) (.expression
      (.unsupported (Expr.call function args).text ConditionCompiler.onlyCalls)
      (Expr.call function args).text)
  | outOfPlace {e : Expr} (h : e.OutOfPlace) :
    Refused scope e (.expression (.unsupported e.text "it cannot be used in a condition") e.text)

variable {scope : Scope} {n : Expr} {f f' : Failure}

/-- No node is both taken and refused. -/
theorem Admitted.not_refused (h : n.Admitted scope) : ¬ n.Refused scope f := by
  intro hf
  cases h with
  | literal | atom | interpolate | binary | not | list =>
    cases hf with
    | outOfPlace h => cases h
  | field name hslot =>
    cases hf with
    | unboundOwner _ hnone => simp [hnone] at hslot
    | outOfPlace h => cases h
  | isNil e =>
    generalize hn : Expr.call "is_nil" [e] = n at hf
    cases hf with
    | otherCall hnil _ =>
      obtain ⟨rfl, rfl⟩ := Expr.call.inj hn
      exact hnil ⟨rfl, rfl⟩
    | outOfPlace h =>
      subst hn
      cases h
    | _ => simp at hn
  | typed e hname ht =>
    cases hf with
    | unnamedType _ hnone => simp [hnone] at hname
    | unknownType _ hname' hparse =>
      cases hname.symm.trans hname'
      exact hparse _ ht
    | otherCall _ htype => exact htype ⟨rfl, rfl⟩
    | outOfPlace h => cases h

/-- A node is refused in one way. -/
theorem Refused.unique (h : n.Refused scope f) (h' : n.Refused scope f') : f = f' := by
  cases h with
  | unboundOwner _ _ =>
    cases h' with
    | unboundOwner => rfl
    | outOfPlace h => cases h
  | unboundVar hnone =>
    cases h' with
    | unboundVar => rfl
    | bareVar hsome => simp [hnone] at hsome
    | outOfPlace h => cases h
  | bareVar hsome =>
    cases h' with
    | unboundVar hnone => simp [hnone] at hsome
    | bareVar => rfl
    | outOfPlace h => cases h
  | unnamedType _ hnone =>
    cases h' with
    | unnamedType => rfl
    | unknownType _ hname => simp [hnone] at hname
    | otherCall _ htype => exact absurd ⟨rfl, rfl⟩ htype
    | outOfPlace h => cases h
  | unknownType _ hname _ =>
    cases h' with
    | unnamedType _ hnone => simp [hnone] at hname
    | unknownType _ hname' =>
      cases hname.symm.trans hname'
      rfl
    | otherCall _ htype => exact absurd ⟨rfl, rfl⟩ htype
    | outOfPlace h => cases h
  | otherCall hnil htype =>
    cases h' with
    | unnamedType | unknownType => exact absurd ⟨rfl, rfl⟩ htype
    | otherCall => rfl
    | outOfPlace h => cases h
  | outOfPlace h =>
    cases h' with
    | outOfPlace => rfl
    | _ => cases h

/-- The code of a refusal says whether a variable is unbound, a type unknown, or neither. -/
theorem Refused.code (h : n.Refused scope f) :
    (f.code = "EXPR_001" ∧ n.Unbound scope) ∨ (f.code = "EXPR_003" ∧ n.UnknownType) ∨
      (f.code = "EXPR_002" ∧ ¬ n.Unbound scope ∧ ¬ n.UnknownType) := by
  cases h with
  | unboundOwner name h => exact .inl ⟨rfl, .field name h⟩
  | unboundVar h => exact .inl ⟨rfl, .var h⟩
  | unknownType e hname hparse => exact .inr (.inl ⟨rfl, .intro e hname hparse⟩)
  | bareVar hsome =>
    refine .inr (.inr ⟨rfl, fun h => ?_, nofun⟩)
    cases h with
    | var hnone => simp [hnone] at hsome
  | unnamedType e hnone =>
    refine .inr (.inr ⟨rfl, nofun, fun h => ?_⟩)
    cases h with
    | intro _ hname => simp [hnone] at hname
  | otherCall hnil htype =>
    refine .inr (.inr ⟨rfl, nofun, fun h => ?_⟩)
    cases h with
    | intro => exact htype ⟨rfl, rfl⟩
  | outOfPlace h => cases h <;> exact .inr (.inr ⟨rfl, nofun, nofun⟩)

theorem Unbound.not_unknownType (h : n.Unbound scope) : ¬ n.UnknownType := by
  cases h <;> nofun

theorem Refused.codes (h : n.Refused scope f) :
    (f.code = "EXPR_001" ↔ n.Unbound scope) ∧ (f.code = "EXPR_003" ↔ n.UnknownType) ∧
      (f.code = "EXPR_002" ↔ ¬ n.Unbound scope ∧ ¬ n.UnknownType) := by
  rcases h.code with ⟨hcode, hunbound⟩ | ⟨hcode, hunknown⟩ | ⟨hcode, hunbound, hunknown⟩
  · simp [hcode, hunbound, hunbound.not_unknownType]
  · have hbound : ¬ n.Unbound scope := fun h => h.not_unknownType hunknown
    simp [hcode, hunknown, hbound]
  · simp [hcode, hunbound, hunknown]

end Expr

/-! ## The compiler -/

namespace ConditionCompiler

open StagedJoin.Expr

/-- A compilation is judged by the nodes of what it compiles. -/
abbrev JudgedBy {γ : Type} (scope : Scope) (nodes : List Expr) (x : Except Failure γ) : Prop :=
  Judged (Admitted scope) (Refused scope) nodes (failure? x)

variable {ctx : Context} {call named : Expr}

theorem namedType_eq_ok {t : ColumnType} (h : namedType call named = .ok t) :
    ∃ name, named.typeName? = some name ∧ ColumnType.parse name = .ok t := by
  unfold namedType at h
  dsimp only at h
  split at h
  · split at h
    · cases h
      exact ⟨_, rfl, ‹_›⟩
    · cases h
  · split at h
    · cases h
      exact ⟨_, rfl, ‹_›⟩
    · cases h
  · cases h

theorem refused_of_namedType {scope : Scope} {e : Expr} {f : Failure}
    (h : namedType (.call "type" [e, named]) named = .error f) :
    (Expr.call "type" [e, named]).Refused scope f := by
  unfold namedType at h
  dsimp only at h
  split at h
  · split at h
    · cases h
    · cases h
      exact .unknownType e rfl fun t ht => by simp_all
  · split at h
    · cases h
    · cases h
      exact .unknownType e rfl fun t ht => by simp_all
  · cases h
    refine .unnamedType e ?_
    unfold typeName?
    split <;> simp_all

/-- The name of a type has no parts. -/
theorem nodes_of_typeName? {e : Expr} {name : String} (h : e.typeName? = some name) :
    e.nodes = [e] := by
  unfold typeName? at h
  split at h
  · rfl
  · rfl
  · cases h

theorem admitted_of_typeName? {scope : Scope} {e : Expr} {name : String}
    (h : e.typeName? = some name) : e.Admitted scope := by
  unfold typeName? at h
  split at h
  · exact .atom _
  · exact .literal _
  · cases h

mutual

/-- What an expression compiles to is decided at the first of its nodes that is refused. -/
theorem judged_compileTerm (count : Nat) (hint : TypeTag) :
    (e : Expr) → JudgedBy ctx.scope e.nodes (compileTerm ctx count hint e)
  | .literal l => by
    rw [compileTerm]
    exact .single (.literal l)
  | .atom name => by
    rw [compileTerm]
    exact .single (.atom name)
  | .field owner name => by
    rw [compileTerm]
    split
    · rename_i hslot
      exact .single (.field name (by rw [hslot]; rfl))
    · rename_i hslot
      exact .here (.unboundOwner name hslot)
  | .interpolate p => by
    rw [compileTerm]
    exact .single (.interpolate p)
  | .binary op left right => by
    have hleft := judged_compileTerm count (ctx.operandTag right) left
    rw [compileTerm]
    refine .cons (.binary op left right) ?_
    split
    · rename_i hl
      rw [hl] at hleft
      exact hleft.append_some
    · rename_i l ps hl
      have hright :=
        judged_compileTerm (count + ps.length) (ctx.rightTag op left right) right
      rw [hl] at hleft
      refine .behind hleft ?_
      split
      · rename_i hr
        rwa [hr] at hright
      · rename_i hr
        rwa [hr] at hright
  | .not e => by
    have he := judged_compileTerm count .any e
    rw [compileTerm]
    refine .cons (.not e) ?_
    split <;> rename_i h <;> rwa [h] at he
  | .list items => by
    have hitems := judged_compileItems count hint items
    rw [compileTerm]
    refine .cons (.list items) ?_
    split <;> rename_i h <;> rwa [h] at hitems
  | .call function [e] => by
    have he := judged_compileTerm count .any e
    rw [compileTerm]
    split
    · rename_i hfun
      subst hfun
      refine .cons (.isNil e) ?_
      rw [itemNodes, itemNodes, List.append_nil]
      split <;> rename_i h <;> rwa [h] at he
    · rename_i hfun
      exact .here (.otherCall (fun h => hfun h.1) (by simp))
  | .call function [e, named] => by
    have he := judged_compileTerm count .any e
    rw [compileTerm]
    split
    · rename_i hfun
      subst hfun
      split
      · rename_i hnamed
        exact .here (refused_of_namedType hnamed)
      · rename_i t hnamed
        obtain ⟨name, hname, ht⟩ := namedType_eq_ok hnamed
        -- the name of the type stands behind the operand and passes
        have hbehind : ∀ {o : Option Failure},
            Judged (Admitted ctx.scope) (Refused ctx.scope) e.nodes o →
              Judged (Admitted ctx.scope) (Refused ctx.scope)
                (Expr.call "type" [e, named]).nodes o := by
          intro o ho
          refine .cons (.typed e hname ht) ?_
          rw [itemNodes, itemNodes, itemNodes, List.append_nil, nodes_of_typeName? hname]
          cases o with
          | some f => exact ho.append_some
          | none => exact .behind ho (.single (admitted_of_typeName? hname))
        split
        · exact hbehind (.single (.interpolate _))
        · split <;> rename_i h <;> rw [h] at he <;> exact hbehind he
    · rename_i hfun
      exact .here (.otherCall (by simp) fun h => hfun h.1)
  | .call function [] => by
    rw [compileTerm]
    · exact .here (.otherCall (by simp) (by simp))
    · simp
    · simp
  | .call function (_ :: _ :: _ :: _) => by
    rw [compileTerm]
    · exact .here (.otherCall (by simp) (by simp))
    · simp
    · simp
  | .var name => by
    rw [compileTerm]
    split
    · rename_i hslot
      exact .here (.unboundVar hslot)
    · rename_i hslot
      exact .here (.bareVar (by rw [hslot]; rfl))
  | .ellipsis => .here (.outOfPlace .ellipsis)
  | .schema name => .here (.outOfPlace (.schema name))
  | .query q => .here (.outOfPlace (.query q))
  | .keyword pairs => .here (.outOfPlace (.keyword pairs))
  | .tuple items => .here (.outOfPlace (.tuple items))
  | .map pairs => .here (.outOfPlace (.map pairs))

theorem judged_compileItems (count : Nat) (hint : TypeTag) :
    (items : List Expr) → JudgedBy ctx.scope (itemNodes items) (compileItems ctx count hint items)
  | [] => by
    rw [compileItems]
    exact .nil
  | e :: rest => by
    have he := judged_compileTerm count hint e
    rw [compileItems, itemNodes]
    split
    · rename_i ht
      rw [ht] at he
      exact he.append_some
    · rename_i t ps ht
      have hrest := judged_compileItems (count + ps.length) hint rest
      rw [ht] at he
      refine .behind he ?_
      split <;> rename_i hts <;> rwa [hts] at hrest

end

/-- The standard compiler takes exactly the expressions of which every node may stand in a
condition, whatever is known of the schemas and however many parameters there are. It refuses
any other for the first of its nodes that may not, with a code that says what is wrong there. -/
theorem standard_accepts_exactly (ctx : Context) (count : Nat) (e : Expr) :
    ((∃ r, standard ctx count e = .ok r) ↔ ∀ n ∈ e.nodes, n.Admitted ctx.scope) ∧
      (∀ f, standard ctx count e = .error f ↔
        FirstFault (Admitted ctx.scope) (Refused ctx.scope) e.nodes f) ∧
      (∀ schemas view count', failure? (standard ⟨ctx.scope, schemas, view⟩ count' e) =
        failure? (standard ctx count e)) ∧
      ∀ (n : Expr) (f : Failure), n.Refused ctx.scope f →
        (f.code = "EXPR_001" ↔ n.Unbound ctx.scope) ∧ (f.code = "EXPR_003" ↔ n.UnknownType) ∧
          (f.code = "EXPR_002" ↔ ¬ n.Unbound ctx.scope ∧ ¬ n.UnknownType) := by
  have hpass : ∀ (n : Expr) f, n.Admitted ctx.scope → ¬ n.Refused ctx.scope f :=
    fun _ _ => Admitted.not_refused
  have hfault : ∀ (n : Expr) f f', n.Refused ctx.scope f → n.Refused ctx.scope f' → f = f' :=
    fun _ _ _ => Refused.unique
  have herror : ∀ schemas view count' f,
      failure? (standard ⟨ctx.scope, schemas, view⟩ count' e) = some f ↔
        FirstFault (Admitted ctx.scope) (Refused ctx.scope) e.nodes f := by
    intro schemas view count' f
    have hjudged : JudgedBy ctx.scope e.nodes (standard ⟨ctx.scope, schemas, view⟩ count' e) :=
      judged_compileTerm count' .any e
    exact hjudged.eq_some_iff hpass hfault
  refine ⟨?_, fun f => ?_, fun schemas view count' => ?_, fun n f hf => hf.codes⟩
  · exact failure?_eq_none.symm.trans ((judged_compileTerm count .any e).eq_none_iff hpass)
  · exact failure?_eq_some.symm.trans (herror ctx.schemas ctx.view count f)
  · exact Option.ext fun f => (herror schemas view count' f).trans
      (herror ctx.schemas ctx.view count f).symm

end ConditionCompiler

end StagedJoin
