import StagedJoin.Proofs.Condition.Compilation
import StagedJoin.Proofs.Condition.CrossQuery
import StagedJoin.Proofs.Condition.Language

/-!
Interpolations beside fields. An interpolation that is an operand becomes a parameter with
the tag of the operand beside it, wherever the two stand in a condition; the value of a
keyword pair has the tag of its field. So a field asks for a value of its type, or for an
array of such values behind `in`.
-/
namespace StagedJoin

/-- What a field asks of an interpolation: to be one of its values, or an array of them. -/
inductive Demand where
  | item
  | array
  deriving DecidableEq, Repr

namespace Demand

def type : Demand → ColumnType → ColumnType
  | .item, t => t
  | .array, t => .array t

/-- The tag that is asked for when the field has a given tag; arrays of a type that is not
known have none. -/
def tag : Demand → TypeTag → TypeTag
  | .item, tag => tag
  | .array, .type t => .type (.array t)
  | .array, _ => .any

end Demand

namespace Expr

/-- An interpolation beside another operand, with the tag that the operand gives to it. -/
inductive Beside (ctx : Context) : Expr → Placeholder → TypeTag → Prop
  | left (op : Operator) (p : Placeholder) (right : Expr) :
    Beside ctx (.binary op (.interpolate p) right) p (ctx.operandTag right)
  | right (op : Operator) (left : Expr) (p : Placeholder) :
    Beside ctx (.binary op left (.interpolate p)) p (ctx.rightTag op left (.interpolate p))

/-- A node that compares a field with an interpolation; behind `in`, the interpolation is to be
an array. -/
inductive Compares : Expr → String → String → Placeholder → Demand → Prop
  | right (op : Operator) (hop : op ≠ .mem) (owner name : String) (p : Placeholder) :
    Compares (.binary op (.field owner name) (.interpolate p)) owner name p .item
  | left (op : Operator) (hop : op ≠ .mem) (owner name : String) (p : Placeholder) :
    Compares (.binary op (.interpolate p) (.field owner name)) owner name p .item
  | membership (owner name : String) (p : Placeholder) :
    Compares (.binary .mem (.field owner name) (.interpolate p)) owner name p .array

variable {ctx : Context} {n : Expr} {owner name : String} {p : Placeholder} {demand : Demand}
  {tag : TypeTag} {slot : Nat}

theorem operandTag_field (hslot : ctx.scope.slot? owner = some slot) (name : String) :
    ctx.operandTag (.field owner name) = ctx.tag slot name := by
  simp only [Context.operandTag, hslot]

theorem membershipTag_interpolate (left : Expr) (p : Placeholder) :
    ctx.membershipTag left (.interpolate p) = Demand.array.tag (ctx.operandTag left) := by
  simp only [Context.membershipTag]
  cases ctx.operandTag left <;> rfl

/-- The interpolation has the tag that the field asks for. -/
theorem Compares.beside (h : n.Compares owner name p demand)
    (hslot : ctx.scope.slot? owner = some slot) :
    n.Beside ctx p (demand.tag (ctx.tag slot name)) := by
  rw [← operandTag_field hslot name]
  cases h with
  | right op hop =>
    have htag : Beside ctx (.binary op (.field owner name) (.interpolate p)) p
      (ctx.rightTag op (.field owner name) (.interpolate p)) := .right op _ p
    rwa [Context.rightTag, if_neg hop] at htag
  | left op hop => exact .left op p _
  | membership =>
    have htag : Beside ctx (.binary .mem (.field owner name) (.interpolate p)) p
      (ctx.rightTag .mem (.field owner name) (.interpolate p)) := .right .mem _ p
    rwa [Context.rightTag, if_pos rfl, membershipTag_interpolate] at htag

end Expr

/-! ## Parameters of nodes -/

namespace ConditionCompiler

open StagedJoin.Expr

variable {ctx : Context} {n : Expr} {p : Placeholder} {tag : TypeTag}

/-- Neither a call of `type/2` nor the name of the type has operands. -/
theorem mem_nodes_of_typed (hb : n.Beside ctx p tag) {e named : Expr} {type : ColumnType}
    (hnamed : namedType (.call "type" [e, named]) named = .ok type)
    (hn : n ∈ (Expr.call "type" [e, named]).nodes) : n ∈ e.nodes := by
  obtain ⟨name, hname, -⟩ := namedType_eq_ok hnamed
  rw [nodes, itemNodes, itemNodes, itemNodes, List.append_nil, nodes_of_typeName? hname] at hn
  rcases List.mem_cons.mp hn with rfl | hn
  · cases hb
  · rcases List.mem_append.mp hn with hn | hn
    · exact hn
    · cases List.mem_singleton.mp hn
      cases hb <;> cases hname

mutual

/-- Wherever a node stands, its interpolation is a parameter with the tag that it is given there. -/
theorem mem_params_of_compiles (hb : n.Beside ctx p tag) {count : Nat} {hint : TypeTag} {e : Expr}
    {t : Term} {ps : List Param} (h : Compiles ctx count hint e t ps) (hn : n ∈ e.nodes) :
    ⟨.deferred p, tag⟩ ∈ ps := by
  cases h with
  | literal | atom | field | interpolate =>
    cases List.mem_singleton.mp hn
    cases hb
  | binary op hleft hright =>
    rw [List.mem_append]
    rcases List.mem_cons.mp hn with rfl | hn
    · cases hb with
      | left =>
        cases hleft
        exact .inl (List.mem_singleton.mpr rfl)
      | right =>
        cases hright
        exact .inr (List.mem_singleton.mpr rfl)
    · exact (List.mem_append.mp hn).imp (mem_params_of_compiles hb hleft)
        (mem_params_of_compiles hb hright)
  | not he =>
    rcases List.mem_cons.mp hn with rfl | hn
    · cases hb
    · exact mem_params_of_compiles hb he hn
  | list hitems =>
    rcases List.mem_cons.mp hn with rfl | hn
    · cases hb
    · exact mem_params_of_compilesItems hb hitems hn
  | isNil he =>
    rw [nodes, itemNodes, itemNodes, List.append_nil] at hn
    rcases List.mem_cons.mp hn with rfl | hn
    · cases hb
    · exact mem_params_of_compiles hb he hn
  | typedParam p' hnamed =>
    cases List.mem_singleton.mp (mem_nodes_of_typed hb hnamed hn)
    cases hb
  | typed hnamed hne he => exact mem_params_of_compiles hb he (mem_nodes_of_typed hb hnamed hn)

theorem mem_params_of_compilesItems (hb : n.Beside ctx p tag) {count : Nat} {hint : TypeTag}
    {items : List Expr} {ts : List Term} {ps : List Param}
    (h : CompilesItems ctx count hint items ts ps) (hn : n ∈ itemNodes items) :
    ⟨.deferred p, tag⟩ ∈ ps := by
  cases h with
  | nil => cases hn
  | cons he hrest =>
    exact List.mem_append.mpr ((List.mem_append.mp hn).imp (mem_params_of_compiles hb he)
      (mem_params_of_compilesItems hb hrest))

end

end ConditionCompiler

/-! ## Parameters of clauses -/

namespace Condition

variable {ctx : Context} {slot : Nat} {n : Expr} {p : Placeholder} {tag : TypeTag}

theorem mem_params_of_ofExpr (hb : n.Beside ctx p tag) {e : Expr} {c : Condition}
    (h : ofExpr .standard ctx e = .ok c) (hn : n ∈ e.nodes) : ⟨.deferred p, tag⟩ ∈ c.params := by
  obtain ⟨-, -, h⟩ := bind_eq_ok.mp h
  obtain ⟨⟨t, ps⟩, hcompile, h⟩ := bind_eq_ok.mp h
  cases h
  exact ConditionCompiler.mem_params_of_compiles hb
    (ConditionCompiler.standard_eq_ok_iff.mp hcompile) hn

theorem mem_params_of_keywordValue (hb : n.Beside ctx p tag) {count : Nat} {name : String}
    {e : Expr} {value : Compiled} (h : keywordValue .standard ctx slot count name e = .ok value)
    (hn : n ∈ e.nodes) : ⟨.deferred p, tag⟩ ∈ value.2 := by
  unfold keywordValue at h
  split at h
  · cases List.mem_singleton.mp hn
    cases hb
  · cases List.mem_singleton.mp hn
    cases hb
  · obtain ⟨-, -, h⟩ := bind_eq_ok.mp h
    exact ConditionCompiler.mem_params_of_compiles hb
      (ConditionCompiler.standard_eq_ok_iff.mp h) hn

/-- A conjunction keeps the parameters that it has and takes those of the values of all pairs. -/
theorem mem_params_of_keywordConjunction {param : Param} {before c : Conjunction}
    {pairs : List (String × Expr)} (h : keywordConjunction .standard ctx slot before pairs = .ok c)
    (hbefore : before.condition.params = before.params)
    (hparam : param ∈ before.params ∨ ∃ pair ∈ pairs, ∀ count value,
      keywordValue .standard ctx slot count pair.1 pair.2 = .ok value → param ∈ value.2) :
    param ∈ c.condition.params := by
  induction pairs generalizing before with
  | nil =>
    cases h
    rw [hbefore]
    exact hparam.resolve_right fun ⟨_, hpair, _⟩ => nomatch hpair
  | cons pair rest ih =>
    rw [keywordConjunction] at h
    split at h
    · cases h
    · rename_i value hvalue
      refine ih h rfl ?_
      change param ∈ before.params ++ value.2 ∨ _
      rcases hparam with hparam | ⟨other, hother, hgives⟩
      · exact .inl (List.mem_append_left _ hparam)
      · rcases List.mem_cons.mp hother with rfl | hother
        · exact .inl (List.mem_append_right _ (hgives _ _ hvalue))
        · exact .inr ⟨other, hother, hgives⟩

theorem mem_params_of_ofKeyword {param : Param} {pairs : List (String × Expr)} {c : Condition}
    (h : ofKeyword .standard ctx slot pairs = .ok c) {pair : String × Expr} (hpair : pair ∈ pairs)
    (hparam : ∀ count value, keywordValue .standard ctx slot count pair.1 pair.2 = .ok value →
      param ∈ value.2) : param ∈ c.params := by
  obtain ⟨conjunction, hconjunction, h⟩ := bind_eq_ok.mp h
  cases h
  exact mem_params_of_keywordConjunction hconjunction rfl (.inr ⟨pair, hpair, hparam⟩)

end Condition

/-- The clause has been compiled, and the interpolation is a parameter of it with the tag. -/
def OnClause.HasParam (clause : OnClause) (p : Placeholder) (tag : TypeTag) : Prop :=
  ∃ c, clause = .compiled c ∧ ⟨.deferred p, tag⟩ ∈ c.params

namespace OnClause

variable {ctx : Context} {slot : Nat} {p : Placeholder} {tag : TypeTag} {clause : OnClause}

/-- The interpolation of a node, anywhere in what is given for `on`. -/
theorem hasParam_of_node {e n : Expr} (h : ofExpr? .standard ctx slot (some e) = .ok clause)
    (hn : n ∈ e.nodes) (hb : n.Beside ctx p tag) : clause.HasParam p tag := by
  cases e with
  | keyword pairs =>
    obtain ⟨c, hc, h⟩ := bind_eq_ok.mp h
    cases h
    rcases List.mem_cons.mp hn with rfl | hn
    · cases hb
    · obtain ⟨pair, hpair, hn⟩ := Expr.mem_pairNodes.mp hn
      exact ⟨c, rfl, Condition.mem_params_of_ofKeyword hc hpair fun count value hvalue =>
        Condition.mem_params_of_keywordValue hb hvalue hn⟩
  | interpolate _ =>
    cases List.mem_singleton.mp hn
    cases hb
  | list items =>
    cases items with
    | nil =>
      cases List.mem_singleton.mp hn
      cases hb
    | cons e rest => cases h
  | _ =>
    obtain ⟨c, hc, h⟩ := bind_eq_ok.mp h
    cases h
    exact ⟨c, rfl, Condition.mem_params_of_ofExpr hb hc hn⟩

/-- The interpolation that is the value of a keyword pair. -/
theorem hasParam_of_pair {pairs : List (String × Expr)} {name : String}
    (h : ofExpr? .standard ctx slot (some (.keyword pairs)) = .ok clause)
    (hpair : (name, .interpolate p) ∈ pairs) : clause.HasParam p (ctx.tag slot name) := by
  obtain ⟨c, hc, h⟩ := bind_eq_ok.mp h
  cases h
  refine ⟨c, rfl, Condition.mem_params_of_ofKeyword hc hpair fun count value hvalue => ?_⟩
  cases hvalue
  exact List.mem_singleton.mpr rfl

end OnClause

/-- What is given for the `on` of a join whose first slot is `own` compares the field of a slot
with an interpolation: in one of its nodes, or as a keyword pair. -/
inductive Expr.Asks (scope : Scope) (own : Nat) :
    Expr → Placeholder → Nat → String → Demand → Prop
  | node {e n : Expr} {owner name : String} {p : Placeholder} {demand : Demand} {slot : Nat}
    (hn : n ∈ e.nodes) (h : n.Compares owner name p demand)
    (hslot : scope.slot? owner = some slot) : Asks scope own e p slot name demand
  | pair {pairs : List (String × Expr)} {name : String} {p : Placeholder}
    (h : (name, .interpolate p) ∈ pairs) : Asks scope own (.keyword pairs) p own name .item

theorem Expr.Asks.hasParam {ctx : Context} {own slot : Nat} {e : Expr} {p : Placeholder}
    {name : String} {demand : Demand} {clause : OnClause}
    (h : e.Asks ctx.scope own p slot name demand)
    (hclause : OnClause.ofExpr? .standard ctx own (some e) = .ok clause) :
    clause.HasParam p (demand.tag (ctx.tag slot name)) := by
  cases h with
  | node hn hcompares hslot =>
    exact OnClause.hasParam_of_node hclause hn (hcompares.beside hslot)
  | pair hpair => exact OnClause.hasParam_of_pair hclause hpair

end StagedJoin
