import StagedJoin.Proofs.Condition.Compilation
import StagedJoin.Proofs.Query.Placeholders

/-!
The placeholders of a compiled condition. The standard compiler makes a parameter of an
interpolation where it stands, so a condition has no placeholder that is not written in
it; neither has the clause of the `on` option.
-/
namespace StagedJoin

variable {ctx : Context} {placeholder : Placeholder}

/-- The placeholders that the values of the parameters have. -/
def Param.listPlaceholders (params : List Param) : List Placeholder :=
  params.flatMap fun param => param.value.placeholders

theorem Param.listPlaceholders_append (ps qs : List Param) :
    listPlaceholders (ps ++ qs) = listPlaceholders ps ++ listPlaceholders qs :=
  List.flatMap_append

namespace ConditionCompiler

mutual

theorem placeholders_of_compiles {count : Nat} {hint : TypeTag} {e : Expr} {t : Term}
    {ps : List Param} (h : Compiles ctx count hint e t ps)
    (hp : placeholder ∈ Param.listPlaceholders ps) : placeholder ∈ e.placeholders := by
  cases h with
  | literal | atom | field => cases hp
  | interpolate p => exact hp
  | binary op hleft hright =>
    rw [Param.listPlaceholders_append] at hp
    exact List.mem_append.mpr ((List.mem_append.mp hp).imp (placeholders_of_compiles hleft)
      (placeholders_of_compiles hright))
  | not he =>
    rw [Expr.placeholders]
    exact placeholders_of_compiles he hp
  | list hitems => exact placeholders_of_compilesItems hitems hp
  | isNil he => exact List.mem_append_left _ (placeholders_of_compiles he hp)
  | typedParam p => exact List.mem_append_left _ hp
  | typed hnamed hne he => exact List.mem_append_left _ (placeholders_of_compiles he hp)

theorem placeholders_of_compilesItems {count : Nat} {hint : TypeTag} {items : List Expr}
    {ts : List Term} {ps : List Param} (h : CompilesItems ctx count hint items ts ps)
    (hp : placeholder ∈ Param.listPlaceholders ps) :
    placeholder ∈ Expr.itemPlaceholders items := by
  cases h with
  | nil => cases hp
  | cons he hrest =>
    rw [Param.listPlaceholders_append] at hp
    exact List.mem_append.mpr ((List.mem_append.mp hp).imp (placeholders_of_compiles he)
      (placeholders_of_compilesItems hrest))

end

end ConditionCompiler

/-! ## Conditions and clauses -/

namespace Condition

theorem placeholders_of_keywordValue {slot count : Nat} {name : String} {e : Expr} {r : Compiled}
    (h : keywordValue .standard ctx slot count name e = .ok r)
    (hp : placeholder ∈ Param.listPlaceholders r.2) : placeholder ∈ e.placeholders := by
  unfold keywordValue at h
  split at h
  · cases h
    cases hp
  · cases h
    exact hp
  · obtain ⟨-, -, h⟩ := bind_eq_ok.mp h
    exact ConditionCompiler.placeholders_of_compiles (ConditionCompiler.standard_eq_ok_iff.mp h) hp

theorem placeholders_of_keywordConjunction {slot : Nat} {pairs : List (String × Expr)}
    {before after : Conjunction}
    (h : keywordConjunction .standard ctx slot before pairs = .ok after)
    (hp : placeholder ∈ Param.listPlaceholders after.params) :
    placeholder ∈ Param.listPlaceholders before.params ∨
      placeholder ∈ Expr.pairPlaceholders pairs := by
  induction pairs generalizing before with
  | nil =>
    cases h
    exact .inl hp
  | cons pair rest ih =>
    obtain ⟨name, e⟩ := pair
    rw [keywordConjunction] at h
    split at h
    · cases h
    · rename_i value hvalue
      rw [Expr.pairPlaceholders, List.mem_append]
      rcases ih h with hbefore | hrest
      · rw [Conjunction.addEquation, Param.listPlaceholders_append, List.mem_append] at hbefore
        exact hbefore.imp id fun hv => .inl (placeholders_of_keywordValue hvalue hv)
      · exact .inr (.inr hrest)

theorem placeholders_of_ofKeyword {slot : Nat} {pairs : List (String × Expr)} {c : Condition}
    (h : ofKeyword .standard ctx slot pairs = .ok c) (hp : placeholder ∈ c.placeholders) :
    placeholder ∈ Expr.pairPlaceholders pairs := by
  obtain ⟨conjunction, hconjunction, h⟩ := bind_eq_ok.mp h
  cases h
  refine (placeholders_of_keywordConjunction hconjunction ?_).resolve_left fun hm => nomatch hm
  unfold Conjunction.condition at hp
  split at hp
  · exact hp
  · cases hp

theorem placeholders_of_ofExpr {e : Expr} {c : Condition} (h : ofExpr .standard ctx e = .ok c)
    (hp : placeholder ∈ c.placeholders) : placeholder ∈ e.placeholders := by
  obtain ⟨-, -, h⟩ := bind_eq_ok.mp h
  obtain ⟨r, hr, h⟩ := bind_eq_ok.mp h
  cases h
  exact ConditionCompiler.placeholders_of_compiles (ConditionCompiler.standard_eq_ok_iff.mp hr) hp

end Condition

/-- The clause of the `on` option has no placeholder that the option does not have. -/
theorem OnClause.placeholders_of_ofExpr? {slot : Nat} {on : Option Expr} {clause : OnClause}
    (h : ofExpr? .standard ctx slot on = .ok clause) (hp : placeholder ∈ clause.placeholders) :
    placeholder ∈ on.elim [] Expr.placeholders := by
  unfold ofExpr? at h
  split at h
  case h_2 =>
    cases h
    exact hp
  case h_3 =>
    obtain ⟨c, hc, h⟩ := bind_eq_ok.mp h
    cases h
    exact Condition.placeholders_of_ofKeyword hc hp
  case h_6 =>
    obtain ⟨c, hc, h⟩ := bind_eq_ok.mp h
    cases h
    exact Condition.placeholders_of_ofExpr hc hp
  all_goals
    cases h
    try cases hp

end StagedJoin
