import StagedJoin.Compiler
import StagedJoin.Proofs.Scope.Slots

/-!
What a successful build has found. A join is built exactly when every part of the
invocation passes its check, and it is then put together from those parts. A source
knows its own number of slots, which is never zero, or leaves it to the variables;
the owner of an association is a variable in view.
-/
namespace StagedJoin

/-! ## Variables and arity -/

namespace JoinVars

/-- The slots of a join: those of its source, else those of its variables, else one. -/
def arityWith (vars : JoinVars) (sized : SizedSource) : Nat := (sized.arity <|> vars.arity?).getD 1

theorem length_namesOf {items : List Expr} {seen : List String} {names : List (Option String)}
    (h : namesOf seen items = .ok names) : names.length = items.length := by
  induction items generalizing seen names with
  | nil => cases h; rfl
  | cons e rest ih =>
    obtain ⟨name, -, h⟩ := bind_eq_ok.mp h
    cases name with
    | none =>
      obtain ⟨names, hn, he⟩ := bind_eq_ok.mp h
      cases he
      rw [List.length_cons, List.length_cons, ih hn]
    | some name =>
      dsimp only at h
      split at h
      · cases h
      · obtain ⟨names, hn, he⟩ := bind_eq_ok.mp h
        cases he
        rw [List.length_cons, List.length_cons, ih hn]

/-- Where the number of variables is checked does not count. -/
theorem checkArity_site {vars : JoinVars} {slots : Nat} {site : String}
    (h : vars.checkArity slots site = .ok ()) (site' : String) :
    vars.checkArity slots site' = .ok () := by
  cases hgiven : vars.arity? with
  | none => simp only [checkArity, hgiven]
  | some given =>
    simp only [checkArity, hgiven] at h ⊢
    by_cases hslots : given = slots
    · rw [if_pos hslots]
    · rw [if_neg hslots] at h
      cases h

/-- Variables that are given name at least one slot. -/
theorem one_le_of_splitTarget {target source : Expr} {vars : JoinVars} {given : Nat}
    (h : splitTarget target = .ok (vars, source)) (hg : vars.arity? = some given) : 1 ≤ given := by
  unfold splitTarget at h
  split at h
  · rename_i left right
    split at h
    · rename_i vars' hv
      cases h
      unfold ofExpr at hv
      split at hv
      · cases hv
      · rename_i items hne
        obtain ⟨names, hn, he⟩ := bind_eq_ok.mp hv
        cases he
        cases hg
        rw [length_namesOf hn]
        exact List.length_pos_iff.mpr hne
      · obtain ⟨name, -, he⟩ := bind_eq_ok.mp hv
        cases he
        cases hg
        exact Nat.le_refl 1
    · cases h
  · cases h
    cases hg

end JoinVars

/-! ## Sources -/

namespace JoinSource

variable {ctx : SourceContext} {call : Expr} {sized : SizedSource}

/-- The calls that are read as a source. -/
inductive CallReads (ctx : SourceContext) (call : Expr) (sized : SizedSource) :
    String → List Expr → Prop
  | subquery {inner : Expr} (h : ofSubquery call inner none = .ok sized) :
      CallReads ctx call sized "subquery" [inner]
  | subqueryWith {inner options : Expr} (h : ofSubquery call inner (some options) = .ok sized) :
      CallReads ctx call sized "subquery" [inner, options]
  | assoc {owner field : Expr} (h : ofAssociation ctx call owner field = .ok sized) :
      CallReads ctx call sized "assoc" [owner, field]
  | values {rows types : Expr} (h : ofValues call rows types = .ok sized) :
      CallReads ctx call sized "values" [rows, types]

theorem ofCall_eq_ok_iff {function : String} {args : List Expr} :
    ofCall ctx call function args = .ok sized ↔ CallReads ctx call sized function args := by
  constructor
  · intro h
    unfold ofCall at h
    split at h
    · rename_i hname
      subst hname
      split at h
      · exact .subquery h
      · exact .subqueryWith h
      · cases h
    · split at h
      · rename_i hname
        subst hname
        split at h
        · exact .assoc h
        · cases h
      · split at h
        · rename_i hname
          subst hname
          split at h
          · exact .values h
          · cases h
        · cases h
  · intro h
    cases h <;> assumption

/-- A subquery is given, with the slots of its query, or interpolated, with unknown slots. -/
theorem ofSubquery_cases {inner : Expr} {options : Option Expr}
    (h : ofSubquery call inner options = .ok sized) :
    (∃ q p, inner = .query q ∧ sized = ⟨.subquery (.literal q) p, some q.slotCount⟩) ∨
      ∃ placeholder p, sized = ⟨.subquery (.deferred placeholder) p, none⟩ := by
  obtain ⟨o, -, h⟩ := bind_eq_ok.mp h
  split at h
  · cases h
    exact .inl ⟨_, _, rfl, rfl⟩
  · cases h
    exact .inr ⟨_, _, rfl⟩
  · cases h

theorem exists_values_of_ofValues {rows types : Expr} (h : ofValues call rows types = .ok sized) :
    ∃ source, sized = { source := .values source } := by
  obtain ⟨rs, -, h⟩ := bind_eq_ok.mp h
  obtain ⟨cs, -, h⟩ := bind_eq_ok.mp h
  split at h
  · split at h
    · cases h
      exact ⟨_, rfl⟩
    · cases h
  · cases h
    exact ⟨_, rfl⟩

end JoinSource

/-- What a source guarantees about its slots and its owner. -/
structure SizedSource.Sound (scope : Scope) (sized : SizedSource) : Prop where
  arity_pos : ∀ n, sized.arity = some n → 1 ≤ n
  subquery : ∀ q p, sized.source = .subquery (.literal q) p → sized.arity = some q.slotCount
  owner : ∀ a, sized.source = .association a → ∃ name, scope.slot? name = some a.owner

/-- A join takes at least one slot. -/
theorem SizedSource.Sound.one_le_arityWith {scope : Scope} {sized : SizedSource}
    (h : sized.Sound scope) {vars : JoinVars} {target source : Expr}
    (ht : JoinVars.splitTarget target = .ok (vars, source)) : 1 ≤ vars.arityWith sized := by
  unfold JoinVars.arityWith
  cases hs : sized.arity with
  | some n => exact h.arity_pos n hs
  | none =>
    cases hv : vars.arity? with
    | some n => exact JoinVars.one_le_of_splitTarget ht hv
    | none => exact Nat.le_refl 1

namespace JoinSource

variable {ctx : SourceContext} {call : Expr} {sized : SizedSource}

theorem sound_ofQuery {scope : Scope} {q : Query} (h : ofQuery q = .ok sized) :
    sized.Sound scope := by
  unfold ofQuery at h
  split at h
  · cases h
  · cases h
    exact ⟨by simp, by simp, by simp⟩

theorem sound_ofSubquery {scope : Scope} {inner : Expr} {options : Option Expr}
    (h : ofSubquery call inner options = .ok sized) : sized.Sound scope := by
  rcases ofSubquery_cases h with ⟨q, p, -, rfl⟩ | ⟨placeholder, p, rfl⟩
  · exact ⟨by simp [Query.slotCount], by simp +contextual, by simp⟩
  · exact ⟨by simp, by simp, by simp⟩

theorem slot?_of_ownerSlot {e : Expr} {slot : Nat} (h : ownerSlot ctx e = .ok slot) :
    ∃ name, ctx.scope.slot? name = some slot := by
  unfold ownerSlot at h
  split at h
  · rename_i name
    split at h
    · cases h
    · split at h
      · rename_i hs
        cases h
        exact ⟨name, hs⟩
      · cases h
  · cases h

theorem sound_ofAssociation {owner field : Expr}
    (h : ofAssociation ctx call owner field = .ok sized) : sized.Sound ctx.scope := by
  obtain ⟨slot, hslot, h⟩ := bind_eq_ok.mp h
  obtain ⟨name, -, h⟩ := bind_eq_ok.mp h
  obtain ⟨resolved, -, h⟩ := bind_eq_ok.mp h
  cases h
  refine ⟨by simp, by simp, ?_⟩
  intro a ha
  cases ha
  exact slot?_of_ownerSlot hslot

theorem sound_ofExpr {e : Expr} (h : ofExpr ctx e = .ok sized) : sized.Sound ctx.scope := by
  unfold ofExpr at h
  split at h
  case h_5 => exact sound_ofQuery h
  case h_6 =>
    cases ofCall_eq_ok_iff.mp h with
    | subquery h => exact sound_ofSubquery h
    | subqueryWith h => exact sound_ofSubquery h
    | assoc h => exact sound_ofAssociation h
    | values h =>
      obtain ⟨source, rfl⟩ := exists_values_of_ofValues h
      exact ⟨by simp, by simp, by simp⟩
  all_goals
    cases h
    try exact ⟨by simp, by simp, by simp⟩

@[simp] theorem length_slotSchemas (arity : Nat) (source : JoinSource) :
    (source.slotSchemas arity).length = arity := by
  unfold slotSchemas
  split <;> exact length_resizeSchemas arity _

end JoinSource

theorem checkLastSlot_eq_ok_iff {slot? : Option Nat} {last : Nat} {u : Unit} :
    checkLastSlot slot? last = .ok u ↔ ∀ s ∈ slot?, s ≤ last := by
  unfold checkLastSlot
  cases slot? with
  | none => simp
  | some slot => by_cases h : last < slot <;> simp [h, Nat.not_lt.mp, Nat.not_le.mpr]

/-! ## The parts of a join -/

namespace Compiler

/-- The parts of an invocation, each as its check has left it. -/
structure Parts (c : Compiler) (q : Query) (i : Invocation) where
  qualifier : Qualifier
  options : JoinOptions
  /-- The variables of the binding list. -/
  scope : Scope
  /-- The variables of the join itself. -/
  vars : JoinVars
  target : Expr
  sized : SizedSource
  /-- All variables, those of the join included. -/
  joined : Scope
  on : OnClause
  qualifier_eq : Qualifier.ofExpr c.config.qualifiers i.qualifier = .ok qualifier
  options_eq : JoinOptions.ofExpr? c.config.optionTable .join i.options = .ok options
  scope_eq : Scope.ofQuery q i.binding = .ok scope
  target_eq : JoinVars.splitTarget i.target = .ok (vars, target)
  fresh : scope.checkFresh vars = .ok ()
  sized_eq : JoinSource.ofExpr ⟨scope, vars, q.slotSchemas, c.view⟩ target = .ok sized
  arity_ok : vars.checkArity (vars.arityWith sized) i.target.text = .ok ()
  joined_eq : scope.extend vars (vars.arityWith sized) = .ok joined
  on_eq : c.onClause
    ⟨joined, q.slotSchemas ++ sized.source.slotSchemas (vars.arityWith sized), c.view⟩
    q.slotCount sized.source options.on? = .ok on
  last_ok : checkLastSlot on.maxSlot? (q.slotCount + vars.arityWith sized - 1) = .ok ()

namespace Parts

variable {c : Compiler} {q : Query} {i : Invocation}

def arity (p : c.Parts q i) : Nat := p.vars.arityWith p.sized

/-- The name that is given, else the one that the source suggests. -/
def joinAlias (p : c.Parts q i) : JoinAlias :=
  match p.options.alias? with
  | some name => .explicit name
  | none => q.inferAlias p.sized.source

def join (p : c.Parts q i) : Join where
  qualifier := p.qualifier
  source := p.sized.source
  on := p.on
  joinAlias := p.joinAlias
  tablePrefix := p.options.tablePrefix?
  hints := p.options.hints?
  extensions := p.options.extensions
  slot := q.slotCount
  arity := p.arity
  schemas := p.sized.source.slotSchemas p.arity

theorem sound (p : c.Parts q i) : p.sized.Sound p.scope := JoinSource.sound_ofExpr p.sized_eq

theorem arity_pos (p : c.Parts q i) : 1 ≤ p.arity := p.sound.one_le_arityWith p.target_eq

end Parts

/-- A join is built exactly from parts that pass their checks. -/
theorem build_eq_ok_iff {c : Compiler} {q : Query} {i : Invocation} {j : Join} :
    c.build q i = .ok j ↔ ∃ p : c.Parts q i, p.join = j := by
  constructor
  · intro h
    simp only [build, bind_eq_ok, pure_eq_ok] at h
    obtain ⟨qualifier, hq, options, ho, scope, hs, ⟨vars, target⟩, ht, _, hf, sized, hz, _, ha,
      joined, hj, on, hon, _, hl, rfl⟩ := h
    exact ⟨⟨qualifier, options, scope, vars, target, sized, joined, on, hq, ho, hs, ht, hf, hz, ha,
      hj, hon, hl⟩, rfl⟩
  · rintro ⟨p, rfl⟩
    simp only [build, bind_eq_ok, pure_eq_ok]
    exact ⟨_, p.qualifier_eq, _, p.options_eq, _, p.scope_eq, _, p.target_eq, _, p.fresh, _,
      p.sized_eq, _, p.arity_ok, _, p.joined_eq, _, p.on_eq, _, p.last_ok, rfl⟩

end Compiler

end StagedJoin
