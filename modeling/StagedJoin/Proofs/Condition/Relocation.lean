import StagedJoin.Condition.Lowering
import StagedJoin.Proofs.Condition.Moved

/-!
Compiling a condition commutes with moves. The standard compiler looks at a slot
only through the variable that names it and through its schema, so with moved
variables and schemas it answers with the moved condition, and with the same
failure where it fails.
-/
namespace StagedJoin

variable {offset : Nat} {ctx ctx' : Context}

/-- `ctx'` has the variables of `ctx` at moved slots, with the same schemas. -/
structure Context.Moved (offset : Nat) (ctx ctx' : Context) : Prop
    extends ctx.SeesMoved offset ctx' where
  slot?_shift : ∀ name, ctx'.scope.slot? name = (ctx.scope.slot? name).map (shiftSlot offset)

namespace Context.Moved

theorem operandTag_shift (h : ctx.Moved offset ctx') (e : Expr) :
    ctx'.operandTag e = (ctx.operandTag e).shift offset := by
  cases e
  case field owner name =>
    simp only [operandTag, h.slot?_shift]
    cases ctx.scope.slot? owner with
    | none => rfl
    | some slot => exact h.tag_shift slot name
  all_goals rfl

theorem membershipTag_shift (h : ctx.Moved offset ctx') (left right : Expr) :
    ctx'.membershipTag left right = (ctx.membershipTag left right).shift offset := by
  unfold membershipTag
  split
  · exact h.operandTag_shift left
  · rw [h.operandTag_shift left]
    cases ctx.operandTag left <;> rfl

theorem rightTag_shift (h : ctx.Moved offset ctx') (op : Operator) (left right : Expr) :
    ctx'.rightTag op left right = (ctx.rightTag op left right).shift offset := by
  unfold rightTag
  split
  · exact h.membershipTag_shift left right
  · exact h.operandTag_shift left

end Context.Moved

/-! ## The standard compiler -/

namespace ConditionCompiler

/-- A compiler that answers with the moved term where the context has moved. -/
def Relocatable (compile : ConditionCompiler) : Prop :=
  ∀ offset ctx ctx', ctx.Moved offset ctx' → ∀ count e,
    compile ctx' count e = (compile ctx count e).map (Compiled.shift offset)

/-- Terms and parameters of a list, moved. -/
def shiftItems (offset : Nat) (c : List Term × List Param) : List Term × List Param :=
  (c.1.map (Term.shift offset), c.2.map (Param.shift offset))

mutual

theorem compileTerm_shift (h : ctx.Moved offset ctx') (count : Nat) (hint : TypeTag) :
    (e : Expr) → compileTerm ctx' count (hint.shift offset) e =
      (compileTerm ctx count hint e).map (Compiled.shift offset)
  | .literal l => by rfl
  | .atom name => by rfl
  | .field owner name => by
    simp only [compileTerm, h.slot?_shift]
    cases ctx.scope.slot? owner <;> rfl
  | .interpolate p => by rfl
  | .binary op left right => by
    have hleft := compileTerm_shift h count (ctx.operandTag right) left
    simp only [compileTerm, h.operandTag_shift, h.rightTag_shift, hleft]
    cases compileTerm ctx count (ctx.operandTag right) left with
    | error failure => rfl
    | ok l =>
      obtain ⟨l, ps⟩ := l
      have hright := compileTerm_shift h (count + ps.length) (ctx.rightTag op left right) right
      simp only [Except.map, Compiled.shift, List.length_map, hright]
      cases compileTerm ctx (count + ps.length) (ctx.rightTag op left right) right with
      | error failure => rfl
      | ok r => simp only [Term.shift, List.map_append]
  | .not e => by
    have he := compileTerm_shift h count .any e
    simp only [TypeTag.shift] at he
    simp only [compileTerm, he]
    cases compileTerm ctx count .any e <;> rfl
  | .list items => by
    have hitems := compileItems_shift h count hint items
    simp only [compileTerm, hitems]
    cases compileItems ctx count hint items with
    | error failure => rfl
    | ok r => simp only [Except.map, shiftItems, Compiled.shift, Term.shift, Term.shiftList_eq_map]
  | .call function [e] => by
    have he := compileTerm_shift h count .any e
    simp only [TypeTag.shift] at he
    simp only [compileTerm, he]
    split
    · cases compileTerm ctx count .any e <;> rfl
    · rfl
  | .call function [e, named] => by
    have he := compileTerm_shift h count .any e
    simp only [TypeTag.shift] at he
    simp only [compileTerm]
    split
    · cases namedType (.call function [e, named]) named with
      | error failure => rfl
      | ok t =>
        dsimp only
        split
        · rfl
        · rw [he]
          cases compileTerm ctx count .any e <;> rfl
    · rfl
  | .call function [] => by rfl
  | .call function (_ :: _ :: _ :: _) => by rfl
  | .var name => by
    simp only [compileTerm, h.slot?_shift]
    cases ctx.scope.slot? name <;> rfl
  | .ellipsis => by rfl
  | .schema _ => by rfl
  | .query _ => by rfl
  | .keyword _ => by rfl
  | .tuple _ => by rfl
  | .map _ => by rfl

theorem compileItems_shift (h : ctx.Moved offset ctx') (count : Nat) (hint : TypeTag) :
    (items : List Expr) → compileItems ctx' count (hint.shift offset) items =
      (compileItems ctx count hint items).map (shiftItems offset)
  | [] => by rfl
  | e :: rest => by
    have he := compileTerm_shift h count hint e
    simp only [compileItems, he]
    cases compileTerm ctx count hint e with
    | error failure => rfl
    | ok t =>
      obtain ⟨t, ps⟩ := t
      have hrest := compileItems_shift h (count + ps.length) hint rest
      simp only [Except.map, Compiled.shift, List.length_map, hrest]
      cases compileItems ctx (count + ps.length) hint rest with
      | error failure => rfl
      | ok r => simp only [shiftItems, List.map_cons, List.map_append]

end

theorem relocatable_standard : Relocatable standard := by
  intro offset ctx ctx' h count e
  exact compileTerm_shift h count .any e

end ConditionCompiler

/-! ## The `on` option -/

namespace Condition

variable {compile : ConditionCompiler}

theorem keywordValue_shift (hc : compile.Relocatable) (h : ctx.Moved offset ctx')
    (slot count : Nat) (name : String) (e : Expr) :
    keywordValue compile ctx' (shiftSlot offset slot) count name e =
      (keywordValue compile ctx slot count name e).map (Compiled.shift offset) := by
  unfold keywordValue
  split
  · rw [h.tag_shift]
    rfl
  · rw [h.tag_shift]
    rfl
  · cases e.rejectCrossQuery with
    | error failure => rfl
    | ok u => exact hc offset ctx ctx' h count e

theorem keywordConjunction_shift (hc : compile.Relocatable) (h : ctx.Moved offset ctx')
    (slot : Nat) (pairs : List (String × Expr)) (before : Conjunction) :
    keywordConjunction compile ctx' (shiftSlot offset slot) (before.shift offset) pairs =
      (keywordConjunction compile ctx slot before pairs).map (Conjunction.shift offset) := by
  induction pairs generalizing before with
  | nil => rfl
  | cons p rest ih =>
    obtain ⟨name, e⟩ := p
    have hlength : (before.shift offset).params.length = before.params.length := List.length_map ..
    simp only [keywordConjunction, hlength, keywordValue_shift hc h]
    cases keywordValue compile ctx slot before.params.length name e with
    | error failure => rfl
    | ok value =>
      simp only [Except.map]
      rw [← Conjunction.shift_addEquation]
      exact ih (before.addEquation slot name value)

theorem ofKeyword_shift (hc : compile.Relocatable) (h : ctx.Moved offset ctx') (slot : Nat)
    (pairs : List (String × Expr)) :
    ofKeyword compile ctx' (shiftSlot offset slot) pairs =
      (ofKeyword compile ctx slot pairs).map (Condition.shift offset) := by
  have hpairs := keywordConjunction_shift hc h slot pairs {}
  unfold ofKeyword
  change (keywordConjunction compile ctx' (shiftSlot offset slot) (Conjunction.shift offset {})
    pairs >>= _) = _
  rw [hpairs]
  cases keywordConjunction compile ctx slot {} pairs with
  | error failure => rfl
  | ok c => exact congrArg Except.ok c.condition_shift

theorem ofExpr_shift (hc : compile.Relocatable) (h : ctx.Moved offset ctx') (e : Expr) :
    ofExpr compile ctx' e = (ofExpr compile ctx e).map (Condition.shift offset) := by
  unfold ofExpr
  rw [hc offset ctx ctx' h]
  cases e.rejectCrossQuery with
  | error failure => rfl
  | ok u =>
    rw [ok_bind, ok_bind]
    cases compile ctx 0 e <;> rfl

end Condition

namespace OnClause

/-- The clause that is read behind more slots is the moved clause. -/
theorem ofExpr?_shift {compile : ConditionCompiler} (hc : compile.Relocatable)
    (h : ctx.Moved offset ctx') (slot : Nat) (on : Option Expr) :
    ofExpr? compile ctx' (shiftSlot offset slot) on =
      (ofExpr? compile ctx slot on).map (OnClause.shift offset) := by
  unfold ofExpr?
  split
  · rfl
  · rfl
  · rename_i pairs
    rw [Condition.ofKeyword_shift hc h]
    cases Condition.ofKeyword compile ctx slot pairs <;> rfl
  · rfl
  · rfl
  · rename_i e _ _ _ _
    rw [Condition.ofExpr_shift hc h]
    cases Condition.ofExpr compile ctx e <;> rfl

theorem shift_withNatural (clause : OnClause) (natural : Condition) :
    (clause.withNatural natural).shift offset =
      (clause.shift offset).withNatural (natural.shift offset) := by
  cases clause with
  | compiled c => exact congrArg OnClause.compiled (Condition.shift_and natural c)
  | deferred p previous => rfl

end OnClause

theorem JoinSource.naturalCondition?_shift (source : JoinSource) (offset : Nat) {slot : Nat}
    (hslot : 0 < slot) :
    (source.shift offset).naturalCondition? (slot + offset) =
      (source.naturalCondition? slot).map (Condition.shift offset) := by
  cases source
  case association a =>
    simp only [JoinSource.shift, JoinSource.naturalCondition?, Option.map_map]
    congr 1
    funext r
    exact r.condition_shift offset hslot a.owner
  all_goals rfl

/-- A clause and the condition of its association move together. -/
theorem Compiler.onClause_shift {c : Compiler} (hc : c.conditions.Relocatable)
    (h : ctx.Moved offset ctx') {slot : Nat} (hslot : 0 < slot) (source : JoinSource)
    (on : Option Expr) :
    c.onClause ctx' (slot + offset) (source.shift offset) on =
      (c.onClause ctx slot source on).map (OnClause.shift offset) := by
  have hnatural := source.naturalCondition?_shift offset hslot
  unfold onClause
  rw [← shiftSlot_of_pos hslot, OnClause.ofExpr?_shift hc h, shiftSlot_of_pos hslot, hnatural]
  cases OnClause.ofExpr? c.conditions ctx slot on with
  | error failure => rfl
  | ok clause =>
    cases source.naturalCondition? slot with
    | none => rfl
    | some natural => exact congrArg Except.ok (clause.shift_withNatural natural).symm

end StagedJoin
