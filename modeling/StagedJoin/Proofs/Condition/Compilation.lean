import StagedJoin.Condition.Compiler

/-!
The successful runs of the standard compiler as a relation, with one case for each form of
expression that it takes. What a compiled condition is like is proved by the cases of a run.
-/
namespace StagedJoin.ConditionCompiler

variable {ctx : Context}

mutual

/-- The expression is compiled to the term and the parameters. Its parts are compiled from left to
right, and the parameters of each are numbered on from those before it. -/
inductive Compiles (ctx : Context) : Nat → TypeTag → Expr → Term → List Param → Prop
  | literal {count : Nat} {hint : TypeTag} (l : Literal) :
    Compiles ctx count hint (.literal l) (.literal l.value) []
  | atom {count : Nat} {hint : TypeTag} (name : String) :
    Compiles ctx count hint (.atom name) (.literal (.atom name)) []
  | field {count : Nat} {hint : TypeTag} {owner : String} {slot : Nat} (name : String)
    (hslot : ctx.scope.slot? owner = some slot) :
    Compiles ctx count hint (.field owner name) (.field slot name) []
  | interpolate {count : Nat} {hint : TypeTag} (p : Placeholder) :
    Compiles ctx count hint (.interpolate p) (.param count) [⟨.deferred p, hint⟩]
  | binary {count : Nat} {hint : TypeTag} {left right : Expr} {l r : Term} {ps qs : List Param}
    (op : Operator) (hleft : Compiles ctx count (ctx.operandTag right) left l ps)
    (hright : Compiles ctx (count + ps.length) (ctx.rightTag op left right) right r qs) :
    Compiles ctx count hint (.binary op left right) (.binary op l r) (ps ++ qs)
  | not {count : Nat} {hint : TypeTag} {e : Expr} {t : Term} {ps : List Param}
    (he : Compiles ctx count .any e t ps) : Compiles ctx count hint (.not e) (.not t) ps
  | list {count : Nat} {hint : TypeTag} {items : List Expr} {ts : List Term} {ps : List Param}
    (hitems : CompilesItems ctx count hint items ts ps) :
    Compiles ctx count hint (.list items) (.list ts) ps
  | isNil {count : Nat} {hint : TypeTag} {e : Expr} {t : Term} {ps : List Param}
    (he : Compiles ctx count .any e t ps) :
    Compiles ctx count hint (.call "is_nil" [e]) (.isNil t) ps
  | typedParam {count : Nat} {hint : TypeTag} {named : Expr} {type : ColumnType} (p : Placeholder)
    (hnamed : namedType (.call "type" [.interpolate p, named]) named = .ok type) :
    Compiles ctx count hint (.call "type" [.interpolate p, named]) (.param count)
      [⟨.deferred p, .type type⟩]
  | typed {count : Nat} {hint : TypeTag} {e named : Expr} {type : ColumnType} {t : Term}
    {ps : List Param} (hnamed : namedType (.call "type" [e, named]) named = .ok type)
    (hp : ∀ p, e ≠ .interpolate p) (he : Compiles ctx count .any e t ps) :
    Compiles ctx count hint (.call "type" [e, named]) (.typed t (.type type)) ps

inductive CompilesItems (ctx : Context) :
    Nat → TypeTag → List Expr → List Term → List Param → Prop
  | nil {count : Nat} {hint : TypeTag} : CompilesItems ctx count hint [] [] []
  | cons {count : Nat} {hint : TypeTag} {e : Expr} {rest : List Expr} {t : Term} {ts : List Term}
    {ps qs : List Param} (he : Compiles ctx count hint e t ps)
    (hrest : CompilesItems ctx (count + ps.length) hint rest ts qs) :
    CompilesItems ctx count hint (e :: rest) (t :: ts) (ps ++ qs)

end

mutual

theorem Compiles.eq_ok {count : Nat} {hint : TypeTag} {e : Expr} {t : Term} {ps : List Param}
    (h : Compiles ctx count hint e t ps) : compileTerm ctx count hint e = .ok (t, ps) := by
  cases h with
  | literal l => rfl
  | atom name => rfl
  | field name hslot => simp only [compileTerm, hslot]
  | interpolate p => rfl
  | binary op hleft hright => simp only [compileTerm, hleft.eq_ok, hright.eq_ok]
  | not he => simp only [compileTerm, he.eq_ok]
  | list hitems => simp only [compileTerm, hitems.eq_ok]
  | isNil he => simp only [compileTerm, he.eq_ok, ↓reduceIte]
  | typedParam p hnamed => simp only [compileTerm, hnamed, ↓reduceIte]
  | typed hnamed hp he => simp only [compileTerm, hnamed, he.eq_ok, ↓reduceIte]

theorem CompilesItems.eq_ok {count : Nat} {hint : TypeTag} {items : List Expr} {ts : List Term}
    {ps : List Param} (h : CompilesItems ctx count hint items ts ps) :
    compileItems ctx count hint items = .ok (ts, ps) := by
  cases h with
  | nil => rfl
  | cons he hrest => simp only [compileItems, he.eq_ok, hrest.eq_ok]

end

mutual

theorem compiles_of_compileTerm (count : Nat) (hint : TypeTag) :
    (e : Expr) → {t : Term} → {ps : List Param} → compileTerm ctx count hint e = .ok (t, ps) →
      Compiles ctx count hint e t ps
  | .literal l, _, _, h => by
    cases h
    exact .literal l
  | .atom name, _, _, h => by
    cases h
    exact .atom name
  | .field owner name, _, _, h => by
    rw [compileTerm] at h
    split at h
    · rename_i hslot
      cases h
      exact .field name hslot
    · cases h
  | .interpolate p, _, _, h => by
    cases h
    exact .interpolate p
  | .binary op left right, _, _, h => by
    rw [compileTerm] at h
    split at h
    · cases h
    · rename_i hleft
      split at h
      · cases h
      · rename_i hright
        cases h
        exact .binary op (compiles_of_compileTerm _ _ left hleft)
          (compiles_of_compileTerm _ _ right hright)
  | .not e, _, _, h => by
    rw [compileTerm] at h
    split at h
    · cases h
    · rename_i he
      cases h
      exact .not (compiles_of_compileTerm _ _ e he)
  | .list items, _, _, h => by
    rw [compileTerm] at h
    split at h
    · cases h
    · rename_i hitems
      cases h
      exact .list (compiles_of_compileItems _ _ items hitems)
  | .call function [e], _, _, h => by
    rw [compileTerm] at h
    split at h
    · rename_i hfunction
      subst hfunction
      split at h
      · cases h
      · rename_i he
        cases h
        exact .isNil (compiles_of_compileTerm _ _ e he)
    · cases h
  | .call function [e, named], _, _, h => by
    rw [compileTerm] at h
    split at h
    · rename_i hfunction
      subst hfunction
      split at h
      · cases h
      · rename_i hnamed
        split at h
        · cases h
          exact .typedParam _ hnamed
        · rename_i hp
          split at h
          · cases h
          · rename_i he
            cases h
            exact .typed hnamed hp (compiles_of_compileTerm _ _ e he)
    · cases h
  | .call function [], _, _, h => nomatch h
  | .call function (_ :: _ :: _ :: _), _, _, h => nomatch h
  | .var name, _, _, h => by
    rw [compileTerm] at h
    split at h <;> cases h
  | .ellipsis, _, _, h => nomatch h
  | .schema _, _, _, h => nomatch h
  | .query _, _, _, h => nomatch h
  | .keyword _, _, _, h => nomatch h
  | .tuple _, _, _, h => nomatch h
  | .map _, _, _, h => nomatch h

theorem compiles_of_compileItems (count : Nat) (hint : TypeTag) :
    (items : List Expr) → {ts : List Term} → {ps : List Param} →
      compileItems ctx count hint items = .ok (ts, ps) → CompilesItems ctx count hint items ts ps
  | [], _, _, h => by
    cases h
    exact .nil
  | e :: rest, _, _, h => by
    rw [compileItems] at h
    split at h
    · cases h
    · rename_i he
      split at h
      · cases h
      · rename_i hrest
        cases h
        exact .cons (compiles_of_compileTerm _ _ e he) (compiles_of_compileItems _ _ rest hrest)

end

theorem standard_eq_ok_iff {count : Nat} {e : Expr} {r : Compiled} :
    standard ctx count e = .ok r ↔ Compiles ctx count .any e r.1 r.2 :=
  ⟨compiles_of_compileTerm count .any e, Compiles.eq_ok⟩

end StagedJoin.ConditionCompiler
