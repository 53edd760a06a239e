import StagedJoin.Proofs.Condition.Compilation
import StagedJoin.Proofs.Condition.Language
import StagedJoin.Proofs.Condition.Shift
import StagedJoin.Proofs.Failures

/-!
The standard compiler keeps to the slots in view. Where it fails it fails in ordinary
ways, and where it succeeds every field and every type tag of the result belongs to a
slot that a variable names; so do the equations of a keyword list and of a map of
values, whose slot is that of the join.
-/
namespace StagedJoin

variable {ctx : Context} {next : Nat}

/-! ## Slots in view -/

/-- The tag mentions no slot from `next` on. -/
def TypeTag.Below (next : Nat) (tag : TypeTag) : Prop := ∀ s ∈ tag.slots, s < next

/-- The term and the tags of its parameters mention no slot from `next` on. -/
def Compiled.Below (next : Nat) (r : Compiled) : Prop :=
  (∀ s ∈ r.1.slots, s < next) ∧ ∀ p ∈ r.2, p.tag.Below next

/-- Every variable names a slot before `next`. -/
def Context.Below (next : Nat) (ctx : Context) : Prop :=
  ∀ name slot, ctx.scope.slot? name = some slot → slot < next

theorem TypeTag.below_any : TypeTag.any.Below next := fun _ hs => nomatch hs

theorem TypeTag.below_type (t : ColumnType) : (TypeTag.type t).Below next := fun _ hs => nomatch hs

namespace Context

theorem below_tag {slot : Nat} (h : slot < next) (name : String) : (ctx.tag slot name).Below next := by
  unfold tag
  split
  · exact TypeTag.below_type _
  · intro s hs
    rw [List.mem_singleton.mp hs]
    exact h

theorem Below.operandTag (h : ctx.Below next) (e : Expr) : (ctx.operandTag e).Below next := by
  unfold Context.operandTag
  split
  · split
    · rename_i name _ slot hslot
      exact below_tag (h _ slot hslot) _
    · exact TypeTag.below_any
  · exact TypeTag.below_any

theorem Below.rightTag (h : ctx.Below next) (op : Operator) (left right : Expr) :
    (ctx.rightTag op left right).Below next := by
  unfold Context.rightTag membershipTag
  split
  · split
    · exact h.operandTag left
    · split
      · exact TypeTag.below_type _
      · exact TypeTag.below_any
  · exact h.operandTag left

end Context

/-! ## Compiled terms -/

namespace Compiled

theorem below_of_slots_eq_nil {t : Term} (h : t.slots = []) : Below next (t, []) := by
  refine ⟨fun s hs => ?_, fun p hp => nomatch hp⟩
  rw [h] at hs
  cases hs

theorem below_field {slot : Nat} (h : slot < next) (name : String) :
    Below next (.field slot name, []) := by
  refine ⟨fun s hs => ?_, fun p hp => nomatch hp⟩
  rw [List.mem_singleton.mp hs]
  exact h

theorem below_param {tag : TypeTag} (h : tag.Below next) (count : Nat) (value : Staged Value) :
    Below next (.param count, [⟨value, tag⟩]) := by
  refine ⟨(fun s hs => nomatch hs), fun p hp => ?_⟩
  rw [List.mem_singleton.mp hp]
  exact h

theorem Below.typed {r : Compiled} {tag : TypeTag} (h : r.Below next) (ht : tag.Below next) :
    Below next (.typed r.1 tag, r.2) :=
  ⟨List.forall_mem_append.mpr ⟨h.1, ht⟩, h.2⟩

theorem Below.binary {l r : Compiled} (hl : l.Below next) (hr : r.Below next) (op : Operator) :
    Below next (.binary op l.1 r.1, l.2 ++ r.2) :=
  ⟨List.forall_mem_append.mpr ⟨hl.1, hr.1⟩, List.forall_mem_append.mpr ⟨hl.2, hr.2⟩⟩

end Compiled

theorem Expr.Refused.ordinary {scope : Scope} {n : Expr} {f : Failure} (h : n.Refused scope f) :
    f.Ordinary := by
  cases h <;> trivial

namespace ConditionCompiler

mutual

theorem below_of_compiles (h : ctx.Below next) {count : Nat} {hint : TypeTag}
    (hhint : hint.Below next) {e : Expr} {t : Term} {ps : List Param}
    (hc : Compiles ctx count hint e t ps) : Compiled.Below next (t, ps) := by
  cases hc with
  | literal | atom => exact Compiled.below_of_slots_eq_nil rfl
  | field name hslot => exact Compiled.below_field (h _ _ hslot) name
  | interpolate p => exact Compiled.below_param hhint count _
  | binary op hleft hright =>
    have hl := below_of_compiles h (h.operandTag _) hleft
    have hr := below_of_compiles h (h.rightTag op _ _) hright
    exact hl.binary hr op
  | not he | isNil he =>
    have hbelow := below_of_compiles h TypeTag.below_any he
    exact hbelow
  | list hitems => exact below_of_compilesItems h hhint hitems
  | typedParam p => exact Compiled.below_param (TypeTag.below_type _) count _
  | typed hnamed hne he =>
    exact (below_of_compiles h TypeTag.below_any he).typed (TypeTag.below_type _)

theorem below_of_compilesItems (h : ctx.Below next) {count : Nat} {hint : TypeTag}
    (hhint : hint.Below next) {items : List Expr} {ts : List Term} {ps : List Param}
    (hc : CompilesItems ctx count hint items ts ps) :
    (∀ s ∈ Term.itemSlots ts, s < next) ∧ ∀ p ∈ ps, p.tag.Below next := by
  cases hc with
  | nil => exact ⟨(fun _ hs => nomatch hs), (fun _ hp => nomatch hp)⟩
  | cons he hrest =>
    have hhead := below_of_compiles h hhint he
    obtain ⟨hslots, hparams⟩ := below_of_compilesItems h hhint hrest
    exact ⟨List.forall_mem_append.mpr ⟨hhead.1, hslots⟩,
      List.forall_mem_append.mpr ⟨hhead.2, hparams⟩⟩

end

theorem orderly_standard (h : ctx.Below next) (count : Nat) (e : Expr) :
    Orderly (standard ctx count e) (Compiled.Below next) := by
  have hjudged : JudgedBy ctx.scope e.nodes (standard ctx count e) :=
    judged_compileTerm count .any e
  cases hr : standard ctx count e with
  | ok r => exact below_of_compiles h TypeTag.below_any (standard_eq_ok_iff.mp hr)
  | error f =>
    rw [hr] at hjudged
    obtain ⟨_, n, _, -, -, hn⟩ := hjudged
    exact hn.ordinary

end ConditionCompiler

/-! ## Conditions -/

theorem Expr.orderly_rejectCrossQuery (e : Expr) : Orderly e.rejectCrossQuery := by
  unfold rejectCrossQuery
  split <;> trivial

/-- The equations collected so far mention no slot from `next` on. -/
def Conjunction.Below (next : Nat) (c : Conjunction) : Prop :=
  (∀ t ∈ c.term, ∀ s ∈ t.slots, s < next) ∧ ∀ p ∈ c.params, p.tag.Below next

namespace Conjunction

theorem below_empty : Below next {} := ⟨(fun _ ht => nomatch ht), (fun _ hp => nomatch hp)⟩

theorem Below.addEquation {c : Conjunction} (hc : c.Below next) {slot : Nat} (hslot : slot < next)
    (name : String) {value : Compiled} (hv : value.Below next) :
    (c.addEquation slot name value).Below next := by
  have hequation := (Compiled.below_field hslot name).binary hv .eq
  obtain ⟨term, params⟩ := c
  refine ⟨?_, List.forall_mem_append.mpr ⟨hc.2, hv.2⟩⟩
  intro t ht
  cases term with
  | none =>
    cases ht
    exact hequation.1
  | some before =>
    cases ht
    exact List.forall_mem_append.mpr ⟨hc.1 before rfl, hequation.1⟩

theorem Below.condition {c : Conjunction} (hc : c.Below next) :
    ∀ s ∈ c.condition.slots, s < next := by
  obtain ⟨term, params⟩ := c
  cases term with
  | none =>
    intro s hs
    cases hs
  | some t =>
    refine List.forall_mem_append.mpr ⟨hc.1 t rfl, fun s hs => ?_⟩
    obtain ⟨p, hp, hs⟩ := List.mem_flatMap.mp hs
    exact hc.2 p hp s hs

end Conjunction

namespace Condition

theorem orderly_keywordValue (h : ctx.Below next) {slot : Nat} (hslot : slot < next) (count : Nat)
    (name : String) (e : Expr) :
    Orderly (keywordValue .standard ctx slot count name e) (Compiled.Below next) := by
  unfold keywordValue
  split
  · exact Compiled.Below.typed (Compiled.below_of_slots_eq_nil rfl) (Context.below_tag hslot name)
  · exact Compiled.below_param (Context.below_tag hslot name) count _
  · refine e.orderly_rejectCrossQuery.bind fun _ _ _ => ?_
    exact ConditionCompiler.orderly_standard h count e

theorem orderly_keywordConjunction (h : ctx.Below next) {slot : Nat} (hslot : slot < next)
    {before : Conjunction} (hb : before.Below next) (pairs : List (String × Expr)) :
    Orderly (keywordConjunction .standard ctx slot before pairs) (Conjunction.Below next) := by
  induction pairs generalizing before with
  | nil => exact hb
  | cons p rest ih =>
    obtain ⟨name, e⟩ := p
    have hvalue := orderly_keywordValue h hslot before.params.length name e
    rw [keywordConjunction]
    split
    · rename_i hv
      exact hvalue.ordinary hv
    · rename_i value hv
      exact ih (hb.addEquation hslot name (hvalue.post hv))

theorem orderly_ofKeyword (h : ctx.Below next) {slot : Nat} (hslot : slot < next)
    (pairs : List (String × Expr)) :
    Orderly (ofKeyword .standard ctx slot pairs) fun c => ∀ s ∈ c.slots, s < next := by
  exact (orderly_keywordConjunction h hslot Conjunction.below_empty pairs).bind fun c _ hc => hc.condition

theorem orderly_ofExpr (h : ctx.Below next) (e : Expr) :
    Orderly (ofExpr .standard ctx e) fun c => ∀ s ∈ c.slots, s < next := by
  refine e.orderly_rejectCrossQuery.bind fun _ _ _ => ?_
  refine (ConditionCompiler.orderly_standard h 0 e).bind fun r _ hr => ?_
  refine List.forall_mem_append.mpr ⟨hr.1, fun s hs => ?_⟩
  obtain ⟨p, hp, hs⟩ := List.mem_flatMap.mp hs
  exact hr.2 p hp s hs

theorem below_runtimeValue {slot : Nat} (hslot : slot < next) (count : Nat) (name : String)
    (v : Value) : (runtimeValue ctx slot count name v).Below next := by
  unfold runtimeValue
  split
  · exact Compiled.Below.typed (Compiled.below_of_slots_eq_nil rfl) (Context.below_tag hslot name)
  · exact Compiled.below_param (Context.below_tag hslot name) count _

/-- A keyword list of runtime values speaks of the slot that its fields belong to and of no other. -/
theorem slots_ofValues_lt {slot : Nat} (hslot : slot < next) (pairs : List (String × Value)) :
    ∀ s ∈ (ofValues ctx slot pairs).slots, s < next := by
  have hfold : ∀ before : Conjunction, before.Below next →
      (pairs.foldl (fun (c : Conjunction) p =>
        c.addEquation slot p.1 (runtimeValue ctx slot c.params.length p.1 p.2)) before).Below
          next := by
    induction pairs with
    | nil => exact fun before hb => hb
    | cons p rest ih =>
      intro before hb
      exact ih _ (hb.addEquation hslot p.1 (below_runtimeValue hslot _ p.1 p.2))
  exact (hfold {} Conjunction.below_empty).condition

end Condition

/-- The `on` option of a join comes to a condition of slots in view. -/
theorem OnClause.orderly_ofExpr? (h : ctx.Below next) {slot : Nat} (hslot : slot < next)
    (on : Option Expr) :
    Orderly (ofExpr? .standard ctx slot on) fun clause => ∀ s ∈ clause.slots, s < next := by
  unfold ofExpr?
  split
  · intro s hs
    cases hs
  · intro s hs
    cases hs
  · exact (Condition.orderly_ofKeyword h hslot _).bind fun c _ hc => hc
  · intro s hs
    cases hs
  · trivial
  · exact (Condition.orderly_ofExpr h _).bind fun c _ hc => hc

theorem OnClause.slots_withNatural_lt {natural : Condition} {clause : OnClause}
    (hn : ∀ s ∈ natural.slots, s < next) (hc : ∀ s ∈ clause.slots, s < next) :
    ∀ s ∈ (clause.withNatural natural).slots, s < next := by
  cases clause with
  | compiled c =>
    intro s hs
    exact (Condition.mem_slots_and hs).elim (hn s) (hc s)
  | deferred p previous => exact hn

end StagedJoin
