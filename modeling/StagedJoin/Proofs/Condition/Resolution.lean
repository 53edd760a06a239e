import StagedJoin.Bound.Binding
import StagedJoin.Proofs.Condition.Renaming
import StagedJoin.Proofs.Outcome

/-!
Compiling early and resolving late. Where the types of fields become known only after
a condition has been compiled, its tags name the fields, and resolving them gives what
the compiler gives once the types are known. The one exception is an interpolated array:
`x.f in ^p` takes its type from that of `x.f` when it is compiled, or has none.
-/
namespace StagedJoin

/-! ## What an expression looks at -/

namespace Expr

/-- The field in `x.f in ^p`. -/
def membership : Operator → Expr → Expr → List (String × String)
  | .mem, .field owner name, .interpolate _ => [(owner, name)]
  | _, _, _ => []

mutual

/-- The variables that occur in an expression. -/
def vars : Expr → List String
  | .var name => [name]
  | .field owner _ => [owner]
  | .call _ args => itemVars args
  | .binary _ left right => left.vars ++ right.vars
  | .not e => e.vars
  | .keyword pairs => pairVars pairs
  | .list items => itemVars items
  | .tuple items => itemVars items
  | .map pairs => pairVars pairs
  | _ => []

def itemVars : List Expr → List String
  | [] => []
  | e :: rest => e.vars ++ itemVars rest

def pairVars : List (String × Expr) → List String
  | [] => []
  | (_, e) :: rest => e.vars ++ pairVars rest

end

mutual

/-- The fields in front of an interpolated array, `x.f in ^p`. -/
def memberships : Expr → List (String × String)
  | .call _ args => itemMemberships args
  | .binary op left right => membership op left right ++ (left.memberships ++ right.memberships)
  | .not e => e.memberships
  | .keyword pairs => pairMemberships pairs
  | .list items => itemMemberships items
  | .tuple items => itemMemberships items
  | .map pairs => pairMemberships pairs
  | _ => []

def itemMemberships : List Expr → List (String × String)
  | [] => []
  | e :: rest => e.memberships ++ itemMemberships rest

def pairMemberships : List (String × Expr) → List (String × String)
  | [] => []
  | (_, e) :: rest => e.memberships ++ pairMemberships rest

end

theorem membership_vars {op : Operator} {left right : Expr} {m : String × String}
    (h : m ∈ membership op left right) : m.1 ∈ left.vars := by
  unfold membership at h
  split at h
  · rw [List.mem_singleton.mp h]
    exact List.mem_singleton.mpr rfl
  · cases h

mutual

/-- The variables in front of interpolated arrays are variables of the expression. -/
theorem memberships_vars {m : String × String} :
    (e : Expr) → m ∈ e.memberships → m.1 ∈ e.vars
  | .call _ args, h => itemMemberships_vars args h
  | .binary op left right, h => by
    simp only [memberships, vars, List.mem_append] at h ⊢
    rcases h with h | h | h
    · exact .inl (membership_vars h)
    · exact .inl (memberships_vars left h)
    · exact .inr (memberships_vars right h)
  | .not e, h => memberships_vars e h
  | .keyword pairs, h => pairMemberships_vars pairs h
  | .list items, h => itemMemberships_vars items h
  | .tuple items, h => itemMemberships_vars items h
  | .map pairs, h => pairMemberships_vars pairs h

theorem itemMemberships_vars {m : String × String} :
    (items : List Expr) → m ∈ itemMemberships items → m.1 ∈ itemVars items
  | e :: rest, h => by
    simp only [itemMemberships, itemVars, List.mem_append] at h ⊢
    exact h.imp (memberships_vars e) (itemMemberships_vars rest)

theorem pairMemberships_vars {m : String × String} :
    (pairs : List (String × Expr)) → m ∈ pairMemberships pairs → m.1 ∈ pairVars pairs
  | (_, e) :: rest, h => by
    simp only [pairMemberships, pairVars, List.mem_append] at h ⊢
    exact h.imp (memberships_vars e) (pairMemberships_vars rest)

end

end Expr

/-! ## Early and late contexts -/

namespace Context

variable {early late : Context}

/-- A tag given early resolves to the tag that is given late. -/
def Refines (early late : Context) : Prop :=
  ∀ slot name, late.resolve (early.tag slot name) = late.tag slot name

/-- Both contexts have the same slots for some variables and the same tags for some fields. -/
structure Agree (early late : Context) (vars : List String)
    (fields : List (String × String)) : Prop where
  slot?_eq : ∀ x ∈ vars, late.scope.slot? x = early.scope.slot? x
  tag_eq : ∀ m ∈ fields, late.operandTag (.field m.1 m.2) = early.operandTag (.field m.1 m.2)

theorem Agree.left {vs ws : List String} {ms ns : List (String × String)}
    (h : Agree early late (vs ++ ws) (ms ++ ns)) : Agree early late vs ms :=
  ⟨fun x hx => h.slot?_eq x (List.mem_append_left _ hx),
    fun m hm => h.tag_eq m (List.mem_append_left _ hm)⟩

theorem Agree.right {vs ws : List String} {ms ns : List (String × String)}
    (h : Agree early late (vs ++ ws) (ms ++ ns)) : Agree early late ws ns :=
  ⟨fun x hx => h.slot?_eq x (List.mem_append_right _ hx),
    fun m hm => h.tag_eq m (List.mem_append_right _ hm)⟩

theorem Agree.membership {vs : List String} {ms ns : List (String × String)}
    (h : Agree early late vs (ms ++ ns)) : ∀ m ∈ ms,
    late.operandTag (.field m.1 m.2) = early.operandTag (.field m.1 m.2) :=
  fun m hm => h.tag_eq m (List.mem_append_left _ hm)

theorem Agree.left_vars {vs ws : List String} {ms : List (String × String)}
    (h : Agree early late (vs ++ ws) ms) :
    ∀ x ∈ vs, late.scope.slot? x = early.scope.slot? x :=
  fun x hx => h.slot?_eq x (List.mem_append_left _ hx)

theorem Agree.right_vars {vs ws : List String} {ms : List (String × String)}
    (h : Agree early late (vs ++ ws) ms) :
    ∀ x ∈ ws, late.scope.slot? x = early.scope.slot? x :=
  fun x hx => h.slot?_eq x (List.mem_append_right _ hx)

theorem Agree.behind {vs : List String} {ms ns : List (String × String)}
    (h : Agree early late vs (ms ++ ns)) : Agree early late vs ns :=
  ⟨h.slot?_eq, fun m hm => h.tag_eq m (List.mem_append_right _ hm)⟩

theorem resolve_tag (ctx : Context) (slot : Nat) (name : String) :
    ctx.resolve (ctx.tag slot name) = ctx.tag slot name := by
  cases h : ctx.tag slot name with
  | any => rfl
  | type t => rfl
  | field s n =>
    have hfield : s = slot ∧ n = name := by
      unfold tag at h
      split at h <;> cases h
      exact ⟨rfl, rfl⟩
    rw [hfield.1, hfield.2, resolve, h, hfield.1, hfield.2]

/-- Resolving a second time changes nothing. -/
theorem resolve_resolve (ctx : Context) (tag : TypeTag) :
    ctx.resolve (ctx.resolve tag) = ctx.resolve tag := by
  cases tag with
  | any => rfl
  | type t => rfl
  | field slot name => exact ctx.resolve_tag slot name

theorem Refines.resolve_operandTag (h : early.Refines late) {e : Expr}
    (hv : ∀ x ∈ e.vars, late.scope.slot? x = early.scope.slot? x) :
    late.resolve (late.operandTag e) = late.resolve (early.operandTag e) := by
  cases e with
  | field owner name =>
    simp only [operandTag, hv owner (List.mem_singleton.mpr rfl)]
    cases early.scope.slot? owner with
    | none => rfl
    | some slot =>
      dsimp only
      rw [late.resolve_tag, h slot name]
  | _ => rfl

end Context

/-! ## Compiled terms -/

/-- A parameter with its tag resolved. -/
def Param.resolve (ctx : Context) (p : Param) : Param := { p with tag := ctx.resolve p.tag }

/-- A term with its parameters, all tags resolved. -/
def Compiled.resolve (ctx : Context) (r : Compiled) : Compiled :=
  (r.1.mapTags ctx.resolve, r.2.map (Param.resolve ctx))

namespace ConditionCompiler

variable {early late : Context}

/-- Only an interpolation and the items of a list take the tag that is asked for. -/
theorem compileTerm_hint (ctx : Context) (count : Nat) (hint hint' : TypeTag) {e : Expr}
    (hp : ∀ p, e ≠ .interpolate p) (hl : ∀ items, e ≠ .list items) :
    compileTerm ctx count hint e = compileTerm ctx count hint' e := by
  cases e with
  | interpolate p => exact absurd rfl (hp p)
  | list items => exact absurd rfl (hl items)
  | call function args =>
    match args with
    | [] => rfl
    | [e] => rfl
    | [e, named] => simp only [compileTerm]
    | _ :: _ :: _ :: _ => rfl
  | _ => rfl

/-- What the right operand is asked for, early and late, resolves to the same, or is not asked. -/
theorem compileTerm_rightTag (h : early.Refines late) {op : Operator} {left : Expr} (right : Expr)
    (hv : ∀ x ∈ left.vars, late.scope.slot? x = early.scope.slot? x)
    (hm : ∀ m ∈ Expr.membership op left right,
      late.operandTag (.field m.1 m.2) = early.operandTag (.field m.1 m.2)) (count : Nat) :
    ∃ hint, compileTerm late count (late.rightTag op left right) right =
      compileTerm late count hint right ∧
        late.resolve hint = late.resolve (early.rightTag op left right) := by
  by_cases hop : op = .mem
  · subst hop
    cases right with
    | list items => exact ⟨_, rfl, h.resolve_operandTag hv⟩
    | interpolate p =>
      cases left with
      | field owner name =>
        have htag := hm (owner, name) (List.mem_singleton.mpr rfl)
        refine ⟨_, rfl, ?_⟩
        simp only [Context.rightTag, ↓reduceIte, Context.membershipTag, htag]
      | _ => exact ⟨_, rfl, rfl⟩
    | _ => exact ⟨_, compileTerm_hint late count _ _ (fun _ he => nomatch he)
        (fun _ he => nomatch he), rfl⟩
  · simp only [Context.rightTag, hop, ↓reduceIte]
    exact ⟨_, rfl, h.resolve_operandTag hv⟩

/-- Terms and parameters of a list, all tags resolved. -/
def resolveItems (ctx : Context) (r : List Term × List Param) : List Term × List Param :=
  (r.1.map (Term.mapTags ctx.resolve), r.2.map (Param.resolve ctx))

mutual

/-- Compiled early or late, a term resolves to the same. -/
theorem compileTerm_resolve (h : early.Refines late) (count : Nat) {hint hint' : TypeTag}
    (hh : late.resolve hint' = late.resolve hint) :
    (e : Expr) → early.Agree late e.vars e.memberships →
      (compileTerm late count hint' e).map (Compiled.resolve late) =
        (compileTerm early count hint e).map (Compiled.resolve late)
  | .literal l, _ => by rfl
  | .atom name, _ => by rfl
  | .field owner name, ha => by
    simp only [compileTerm, ha.slot?_eq owner (List.mem_singleton.mpr rfl)]
  | .interpolate p, _ => by
    simp only [compileTerm, Except.map, Compiled.resolve, List.map_cons, Param.resolve, hh]
  | .binary op left right, ha => by
    have hleft := compileTerm_resolve h count
      (h.resolve_operandTag ha.right_vars) left ha.behind.left
    simp only [compileTerm]
    rcases map_eq_map_cases hleft with ⟨f, hl, hr⟩ | ⟨⟨l, ps⟩, ⟨l', ps'⟩, hl, hr, hsame⟩
    · rw [hl, hr]
    · obtain ⟨hterm, hparams⟩ := Prod.mk.inj hsame
      have hlength : ps.length = ps'.length := by
        simpa only [List.length_map] using congrArg List.length hparams
      obtain ⟨hint, hhint, hresolve⟩ := compileTerm_rightTag h right ha.left_vars
        ha.membership (count + ps.length)
      have hright := compileTerm_resolve h (count + ps.length) hresolve right ha.behind.right
      simp only [hl, hr, hhint, ← hlength]
      rcases map_eq_map_cases hright with ⟨f, hl', hr'⟩ | ⟨⟨r, qs⟩, ⟨r', qs'⟩, hl', hr', hsame'⟩
      · rw [hl', hr']
      · obtain ⟨hterm', hparams'⟩ := Prod.mk.inj hsame'
        simp only [hl', hr', Except.map, Compiled.resolve, Term.mapTags, List.map_append, hterm,
          hterm', hparams, hparams']
  | .not e, ha => by
    have he := compileTerm_resolve h count (rfl : late.resolve .any = late.resolve .any) e ha
    simp only [compileTerm]
    rcases map_eq_map_cases he with ⟨f, hl, hr⟩ | ⟨l, r, hl, hr, hsame⟩
    · rw [hl, hr]
    · obtain ⟨hterm, hparams⟩ := Prod.mk.inj hsame
      simp only [hl, hr, Except.map, Compiled.resolve, Term.mapTags, hterm, hparams]
  | .list items, ha => by
    have hitems := compileItems_resolve h count hh items ha
    simp only [compileTerm]
    rcases map_eq_map_cases hitems with ⟨f, hl, hr⟩ | ⟨l, r, hl, hr, hsame⟩
    · rw [hl, hr]
    · obtain ⟨hterms, hparams⟩ := Prod.mk.inj hsame
      simp only [hl, hr, Except.map, Compiled.resolve, Term.mapTags, Term.mapTagsList_eq_map,
        hterms, hparams]
  | .call function [e], ha => by
    have he := compileTerm_resolve h count (rfl : late.resolve .any = late.resolve .any) e ha.left
    simp only [compileTerm]
    split
    · rcases map_eq_map_cases he with ⟨f, hl, hr⟩ | ⟨l, r, hl, hr, hsame⟩
      · rw [hl, hr]
      · obtain ⟨hterm, hparams⟩ := Prod.mk.inj hsame
        simp only [hl, hr, Except.map, Compiled.resolve, Term.mapTags, hterm, hparams]
    · rfl
  | .call function [e, named], ha => by
    have he := compileTerm_resolve h count (rfl : late.resolve .any = late.resolve .any) e ha.left
    simp only [compileTerm]
    split
    · cases namedType (.call function [e, named]) named with
      | error failure => rfl
      | ok t =>
        dsimp only
        split
        · rfl
        · rcases map_eq_map_cases he with ⟨f, hl, hr⟩ | ⟨l, r, hl, hr, hsame⟩
          · rw [hl, hr]
          · obtain ⟨hterm, hparams⟩ := Prod.mk.inj hsame
            simp only [hl, hr, Except.map, Compiled.resolve, Term.mapTags, hterm, hparams]
    · rfl
  | .call function [], _ => by rfl
  | .call function (_ :: _ :: _ :: _), _ => by rfl
  | .var name, ha => by
    simp only [compileTerm, ha.slot?_eq name (List.mem_singleton.mpr rfl)]
  | .ellipsis, _ => by rfl
  | .schema _, _ => by rfl
  | .query _, _ => by rfl
  | .keyword _, _ => by rfl
  | .tuple _, _ => by rfl
  | .map _, _ => by rfl

theorem compileItems_resolve (h : early.Refines late) (count : Nat) {hint hint' : TypeTag}
    (hh : late.resolve hint' = late.resolve hint) :
    (items : List Expr) → early.Agree late (Expr.itemVars items) (Expr.itemMemberships items) →
      (compileItems late count hint' items).map (resolveItems late) =
        (compileItems early count hint items).map (resolveItems late)
  | [], _ => by rfl
  | e :: rest, ha => by
    have he := compileTerm_resolve h count hh e ha.left
    simp only [compileItems]
    rcases map_eq_map_cases he with ⟨f, hl, hr⟩ | ⟨⟨t, ps⟩, ⟨t', ps'⟩, hl, hr, hsame⟩
    · rw [hl, hr]
    · obtain ⟨hterm, hparams⟩ := Prod.mk.inj hsame
      have hlength : ps.length = ps'.length := by
        simpa only [List.length_map] using congrArg List.length hparams
      have hrest := compileItems_resolve h (count + ps.length) hh rest ha.right
      simp only [hl, hr, ← hlength]
      rcases map_eq_map_cases hrest with ⟨f, hl', hr'⟩ | ⟨⟨ts, qs⟩, ⟨ts', qs'⟩, hl', hr', hsame'⟩
      · rw [hl', hr']
      · obtain ⟨hterms, hparams'⟩ := Prod.mk.inj hsame'
        simp only [hl', hr', Except.map, resolveItems, List.map_cons, List.map_append, hterm,
          hterms, hparams, hparams']

end

end ConditionCompiler

/-! ## Conditions -/

/-- A condition with all its tags resolved. -/
def Condition.resolve (ctx : Context) (c : Condition) : Condition :=
  ⟨c.term.mapTags ctx.resolve, c.params.map (Param.resolve ctx)⟩

/-- A conjunction in the making with all its tags resolved. -/
def Conjunction.resolve (ctx : Context) (c : Conjunction) : Conjunction :=
  ⟨c.term.map (Term.mapTags ctx.resolve), c.params.map (Param.resolve ctx)⟩

theorem Conjunction.resolve_addEquation (ctx : Context) (c : Conjunction) (slot : Nat)
    (name : String) (value : Compiled) :
    (c.addEquation slot name value).resolve ctx =
      (c.resolve ctx).addEquation slot name (value.resolve ctx) := by
  obtain ⟨term, params⟩ := c
  cases term <;>
    simp only [addEquation, resolve, Term.andThen, Term.eq, Option.map, Term.mapTags,
      Compiled.resolve, List.map_append]

theorem Conjunction.resolve_condition (ctx : Context) (c : Conjunction) :
    (c.resolve ctx).condition = c.condition.resolve ctx := by
  obtain ⟨term, params⟩ := c
  cases term <;> rfl

namespace Condition

variable {early late : Context}

theorem keywordValue_resolve (h : early.Refines late) (slot count : Nat) (name : String) {e : Expr}
    (ha : early.Agree late e.vars e.memberships) :
    (keywordValue .standard late slot count name e).map (Compiled.resolve late) =
      (keywordValue .standard early slot count name e).map (Compiled.resolve late) := by
  unfold keywordValue
  split
  · simp only [Except.map, Compiled.resolve, Term.mapTags, late.resolve_tag, h slot name]
  · simp only [Except.map, Compiled.resolve, Param.resolve, List.map_cons, List.map_nil,
      late.resolve_tag, h slot name]
  · cases e.rejectCrossQuery with
    | error failure => rfl
    | ok u => exact ConditionCompiler.compileTerm_resolve h count rfl e ha

theorem keywordConjunction_resolve (h : early.Refines late) (slot : Nat)
    {pairs : List (String × Expr)}
    (ha : early.Agree late (Expr.pairVars pairs) (Expr.pairMemberships pairs))
    {before before' : Conjunction} (hb : before'.resolve late = before.resolve late) :
    (keywordConjunction .standard late slot before' pairs).map (Conjunction.resolve late) =
      (keywordConjunction .standard early slot before pairs).map (Conjunction.resolve late) := by
  induction pairs generalizing before before' with
  | nil => exact congrArg Except.ok hb
  | cons p rest ih =>
    obtain ⟨name, e⟩ := p
    have hlength : before'.params.length = before.params.length := by
      simpa only [Conjunction.resolve, List.length_map] using
        congrArg (fun c => c.params.length) hb
    have hvalue := keywordValue_resolve h slot before.params.length name ha.left
    simp only [keywordConjunction, hlength]
    rcases map_eq_map_cases hvalue with ⟨f, hl, hr⟩ | ⟨l, r, hl, hr, hsame⟩
    · rw [hl, hr]
    · rw [hl, hr]
      refine ih ha.right ?_
      rw [Conjunction.resolve_addEquation, Conjunction.resolve_addEquation, hb, hsame]

theorem ofKeyword_resolve (h : early.Refines late) (slot : Nat) {pairs : List (String × Expr)}
    (ha : early.Agree late (Expr.pairVars pairs) (Expr.pairMemberships pairs)) :
    (ofKeyword .standard late slot pairs).map (Condition.resolve late) =
      (ofKeyword .standard early slot pairs).map (Condition.resolve late) := by
  have hpairs := keywordConjunction_resolve h slot ha
    (rfl : Conjunction.resolve late {} = Conjunction.resolve late {})
  unfold ofKeyword
  rcases map_eq_map_cases hpairs with ⟨f, hl, hr⟩ | ⟨l, r, hl, hr, hsame⟩
  · rw [hl, hr]
  · rw [hl, hr]
    have hcondition := congrArg Conjunction.condition hsame
    rw [Conjunction.resolve_condition, Conjunction.resolve_condition] at hcondition
    exact congrArg Except.ok hcondition

theorem ofExpr_resolve (h : early.Refines late) {e : Expr}
    (ha : early.Agree late e.vars e.memberships) :
    (ofExpr .standard late e).map (Condition.resolve late) =
      (ofExpr .standard early e).map (Condition.resolve late) := by
  have hterm := ConditionCompiler.compileTerm_resolve h 0
    (rfl : late.resolve .any = late.resolve .any) e ha
  unfold ofExpr ConditionCompiler.standard
  cases e.rejectCrossQuery with
  | error failure => rfl
  | ok u =>
    rcases map_eq_map_cases hterm with ⟨f, hl, hr⟩ | ⟨l, r, hl, hr, hsame⟩
    · simp only [ok_bind, hl, hr, error_bind]
    · simp only [ok_bind, hl, hr]
      obtain ⟨hterm, hparams⟩ := Prod.mk.inj hsame
      simp only [pure, Except.pure, Except.map, Condition.resolve, hterm, hparams]

end Condition

/-- A clause with all its tags resolved. -/
def OnClause.resolve (ctx : Context) : OnClause → OnClause
  | .compiled c => .compiled (c.resolve ctx)
  | .deferred p natural => .deferred p (natural.map (Condition.resolve ctx))

/-- The variables of the `on` option, if it is given. -/
def Expr.vars? (on : Option Expr) : List String := on.elim [] vars

def Expr.memberships? (on : Option Expr) : List (String × String) := on.elim [] memberships

/-- The `on` option, read early or late, resolves to the same. -/
theorem OnClause.ofExpr?_resolve {early late : Context} (h : early.Refines late) (slot : Nat)
    {on : Option Expr} (ha : early.Agree late (Expr.vars? on) (Expr.memberships? on)) :
    (ofExpr? .standard late slot on).map (OnClause.resolve late) =
      (ofExpr? .standard early slot on).map (OnClause.resolve late) := by
  have hcompiled : ∀ x y : Except Failure Condition,
      x.map (Condition.resolve late) = y.map (Condition.resolve late) →
      (x >>= fun c => pure (OnClause.compiled c)).map (OnClause.resolve late) =
        (y >>= fun c => pure (OnClause.compiled c)).map (OnClause.resolve late) := by
    intro x y hxy
    rcases map_eq_map_cases hxy with ⟨f, rfl, rfl⟩ | ⟨l, r, rfl, rfl, hsame⟩
    · rfl
    · exact congrArg (fun c => Except.ok (OnClause.compiled c)) hsame
  unfold ofExpr?
  split
  · rfl
  · rfl
  · exact hcompiled _ _ (Condition.ofKeyword_resolve h slot ha)
  · rfl
  · rfl
  · exact hcompiled _ _ (Condition.ofExpr_resolve h ha)

end StagedJoin
