import StagedJoin.Proofs.Bound.Clauses
import StagedJoin.Proofs.Compiler.Exchange
import StagedJoin.Proofs.Source.Deferral

/-!
Invocations of which parts are left to supply. The one can be built exactly when the other
can, but for an association that is missing. The joins that are built have the same slots,
and they differ in those parts and in what follows from them: where less is known when the
join is built, its condition has tags in the place of types.
-/
namespace StagedJoin

namespace Invocation

/-- The options name the join. -/
def IsNamed (i : Invocation) : Prop :=
  ∃ pairs e, i.options = some (.keyword pairs) ∧ ("as", e) ∈ pairs

/-- The condition, if there is one, is written out, and no array is left to supply in it. -/
def HasStaticOn (i : Invocation) : Prop :=
  ∀ pairs e, i.options = some (.keyword pairs) → ("on", e) ∈ pairs →
    e.isInterpolated = false ∧ e.memberships = []

/-- The invocations are the same but for parts that are given in the one and left to supply in the
other. -/
structure Defers (args : Arguments) (table : List OptionSpec) (i i' : Invocation) : Prop where
  qualifier_eq : i'.qualifier = i.qualifier
  binding_eq : i'.binding = i.binding
  target : Expr.TargetDefers args i.IsNamed i.target i'.target
  options : Expr.OptionsDefer args table i.options i'.options

variable {i : Invocation} {table : List OptionSpec} {o : JoinOptions}

theorem HasStaticOn.on? (h : i.HasStaticOn)
    (ho : JoinOptions.ofExpr? table .join i.options = .ok o) :
    (∀ p, o.on? ≠ some (.interpolate p)) ∧ Expr.memberships? o.on? = [] := by
  cases hon : o.on? with
  | none => exact ⟨(fun _ he => nomatch he), rfl⟩
  | some e =>
    obtain ⟨pairs, hpairs, hmem⟩ := (JoinOptions.get?_eq_some_iff ho).mp hon
    obtain ⟨hwritten, hmemberships⟩ := h pairs e hpairs hmem
    refine ⟨?_, hmemberships⟩
    rintro p ⟨⟩
    cases hwritten

/-- The name in the options is the alias of the join, known or left to supply. -/
theorem IsNamed.exists_alias? (h : i.IsNamed) {c : Config}
    (ho : JoinOptions.ofExpr? c.optionTable .join i.options = .ok o) :
    ∃ name, o.alias? = some name := by
  obtain ⟨pairs, e, hpairs, hmem⟩ := h
  have hget := (JoinOptions.get?_eq_some_iff ho).mpr ⟨pairs, hpairs, hmem⟩
  let spec : OptionSpec := { name := "as", accepts := [.atom], interpolated := true }
  have hspec : spec ∈ c.optionTable := List.mem_append_left _ (by decide)
  have htakes : spec.takes e = true := JoinOptions.takes_of_ofExpr? ho hspec hget
  rw [JoinOptions.alias?, hget, Option.bind_some]
  cases e with
  | atom name => exact ⟨_, rfl⟩
  | interpolate p => exact ⟨_, rfl⟩
  | literal l => cases l <;> cases htakes
  | list items =>
    simp only [OptionSpec.takes, Expr.isInterpolated, Expr.literalKind?] at htakes
    split at htakes
    · rename_i hkind
      split at hkind <;> cases hkind
      cases htakes
    · cases htakes
  | _ => cases htakes

end Invocation

/-! ## What is known of the slots -/

/-- Of the slots of a source, no more is known where parts are left to supply. -/
theorem JoinSource.Defers.slotSchemas {args : Arguments} {ctx : SourceContext} {named : Prop}
    {source source' : JoinSource} (h : source.Defers args ctx named source') (arity : Nat) :
    SchemasRefine (source'.slotSchemas arity) (source.slotSchemas arity) := by
  cases h with
  | same => exact .refl _
  | table hp href => exact .of_resize_nil (length_resizeSchemas _ _)
  | @subquery query _ _ _ hq hp =>
    cases hq with
    | same => cases query <;> exact .refl _
    | supplied hq => exact .of_resize_nil (length_resizeSchemas _ _)
  | association hnamed hp hr => exact (SchemasRefine.of_none [_]).resize arity

namespace OnClause

variable {early late : Context} {slot : Nat} {on : Option Expr}

theorem agree_of_static (hscope : late.scope = early.scope)
    (hon : Expr.memberships? on = []) :
    early.Agree late (Expr.vars? on) (Expr.memberships? on) := by
  refine ⟨fun x _ => by rw [hscope], fun m hm => ?_⟩
  rw [hon] at hm
  cases hm

/-- A clause without arrays that are left to supply can be read with more known if it can with
less. -/
theorem exists_iff_of_refines (h : early.Refines late) (hscope : late.scope = early.scope)
    (hon : Expr.memberships? on = []) :
    (∃ clause, ofExpr? .standard late slot on = .ok clause) ↔
      ∃ clause, ofExpr? .standard early slot on = .ok clause := by
  have hsame := ofExpr?_resolve h slot (agree_of_static hscope hon)
  rcases map_eq_map_cases hsame with ⟨f, hlate, hearly⟩ | ⟨l, e, hlate, hearly, -⟩
  · rw [hlate, hearly]
  · rw [hlate, hearly]
    simp

/-- Clauses that are read from one condition resolve to the same where all is known. -/
theorem resolve_eq_of_refines {ctx ctx' : Context} (h : ctx.Refines late) (h' : ctx'.Refines late)
    (hscope : late.scope = ctx.scope) (hscope' : late.scope = ctx'.scope)
    (hon : Expr.memberships? on = []) {clause clause' : OnClause}
    (hclause : ofExpr? .standard ctx slot on = .ok clause)
    (hclause' : ofExpr? .standard ctx' slot on = .ok clause') :
    clause'.resolve late = clause.resolve late := by
  have hsame := ofExpr?_resolve h slot (agree_of_static hscope hon)
  have hsame' := ofExpr?_resolve h' slot (agree_of_static hscope' hon)
  rw [hclause] at hsame
  rw [hclause'] at hsame'
  exact Except.ok.inj (hsame'.symm.trans hsame)

theorem exists_compiled {ctx : Context} {clause : OnClause}
    (hon : ∀ p, on ≠ some (.interpolate p)) (h : ofExpr? .standard ctx slot on = .ok clause) :
    ∃ cond, clause = .compiled cond := by
  unfold ofExpr? at h
  split at h
  · cases h
    exact ⟨_, rfl⟩
  · exact absurd rfl (hon _)
  · obtain ⟨cond, -, h⟩ := bind_eq_ok.mp h
    cases h
    exact ⟨cond, rfl⟩
  · cases h
    exact ⟨_, rfl⟩
  · cases h
  · obtain ⟨cond, -, h⟩ := bind_eq_ok.mp h
    cases h
    exact ⟨cond, rfl⟩

end OnClause

/-- The two aliases: the same, or a name that is given and a placeholder for it. -/
inductive JoinAlias.Defers (args : Arguments) : Option String → JoinAlias → JoinAlias → Prop
  | same (a : JoinAlias) : Defers args Option.none a a
  | supplied {name : String} {p : Placeholder} (hp : args.getAs? Argument.name? p = some name) :
      Defers args (some name) (.explicit (.literal name)) (.explicit (.deferred p))

theorem JoinAlias.Defers.eq_or_supplied {args : Arguments} {name? : Option String}
    {a a' : JoinAlias} (h : a.Defers args name? a') :
    name? = Option.none ∧ a' = a ∨ ∃ name p, name? = some name ∧ a = .explicit (.literal name) ∧
      a' = .explicit (.deferred p) ∧ args.getAs? Argument.name? p = some name := by
  cases h with
  | same => exact .inl ⟨rfl, rfl⟩
  | supplied hp => exact .inr ⟨_, _, rfl, rfl, rfl, hp⟩

namespace Compiler.Parts

variable {c : Compiler} {q : Query} {i i' : Invocation} {args : Arguments}

/-- The parts of the two invocations: the same variables and slots, and a source and options of
which parts are left to supply. -/
structure Defers (args : Arguments) (p : c.Parts q i) (p' : c.Parts q i') : Prop where
  qualifier_eq : p'.qualifier = p.qualifier
  joined_eq : p'.joined = p.joined
  arity_eq : p'.arity = p.arity
  source : p.sized.source.Defers args p.sourceContext i.IsNamed p'.sized.source
  options : p.options.Defers args c.config.optionTable p'.options

/-- What can be read with parts that are given can be with placeholders for them. -/
theorem exists_reads (p : c.Parts q i) (h : i.Defers args c.config.optionTable i') :
    ∃ target sized options, JoinVars.splitTarget i'.target = .ok (p.vars, target) ∧
      JoinSource.ofExpr p.sourceContext target = .ok sized ∧
      JoinOptions.ofExpr? c.config.optionTable .join i'.options = .ok options ∧
      p.sized.source.Defers args p.sourceContext i.IsNamed sized.source ∧
      p.vars.arityWith sized = p.arity ∧
      p.options.Defers args c.config.optionTable options := by
  rcases JoinVars.splitTarget_cases h.target with
    ⟨f, f', herror, -⟩ | ⟨vars, e, e', hok, htarget, hdefers⟩
  · cases p.target_eq.symm.trans herror
  cases p.target_eq.symm.trans hok
  rcases JoinSource.ofExpr_cases_of_defers p.sourceContext hdefers with
    ⟨f, f', herror, -⟩ | ⟨s, sized, hok, hsized, hsource, harity⟩ | ⟨f, s', herror, -⟩
  · cases p.sized_eq.symm.trans herror
  · cases p.sized_eq.symm.trans hok
    rcases JoinOptions.ofExpr?_cases .join h.options with
      ⟨f, f', herror, -⟩ | ⟨o, options, hok, hoptions, hrelated⟩
    · cases p.options_eq.symm.trans herror
    · cases p.options_eq.symm.trans hok
      exact ⟨e', sized, options, htarget, hsized, hoptions, hsource, harity, hrelated⟩
  · cases p.sized_eq.symm.trans herror

/-- Parts of both invocations are what is read from both. -/
theorem defers (p : c.Parts q i) (p' : c.Parts q i')
    (h : i.Defers args c.config.optionTable i') : p.Defers args p' := by
  obtain ⟨e', s, o, htarget, hsized, hoptions, hsource, harity, hrelated⟩ := p.exists_reads h
  obtain ⟨qualifier', options', scope', vars', target', sized', joined', on', hqualifier',
    hoptions', hscope', htarget', -, hsized', -, hjoined', -, -⟩ := p'
  rw [h.qualifier_eq] at hqualifier'
  rw [h.binding_eq] at hscope'
  cases p.qualifier_eq.symm.trans hqualifier'
  cases p.scope_eq.symm.trans hscope'
  cases htarget.symm.trans htarget'
  cases hsized.symm.trans hsized'
  cases hoptions.symm.trans hoptions'
  rw [harity] at hjoined'
  cases p.joined_eq.symm.trans hjoined'
  exact ⟨rfl, rfl, harity, hsource, hrelated⟩

/-- Before the query is bound, no more is known where parts are left to supply. -/
theorem Defers.schemas {p : c.Parts q i} {p' : c.Parts q i'} (h : p.Defers args p') :
    SchemasRefine p'.context.schemas p.context.schemas := by
  refine (SchemasRefine.refl _).append ?_
  rw [h.arity_eq]
  exact h.source.slotSchemas p.arity

/-- What can be built with parts that are given can be with placeholders for them. -/
theorem exists_deferred (p : c.Parts q i) (hc : c.conditions = .standard) (hon : i.HasStaticOn)
    (h : i.Defers args c.config.optionTable i') : Nonempty (c.Parts q i') := by
  obtain ⟨target, sized, options, htarget, hsized, hoptions, hsource, harity, hrelated⟩ :=
    p.exists_reads h
  let early : Context := ⟨p.joined, q.slotSchemas ++ sized.source.slotSchemas p.arity, c.view⟩
  have hrefines : early.Refines p.context :=
    Context.refines_of_schemas rfl ((SchemasRefine.refl _).append (hsource.slotSchemas p.arity))
  obtain ⟨clause, hclause, -⟩ := onClause_eq_ok_iff.mp p.on_eq
  rw [hc] at hclause
  obtain ⟨clause', hclause'⟩ := (OnClause.exists_iff_of_refines hrefines rfl
    (hon.on? p.options_eq).2).mp ⟨clause, hclause⟩
  rw [← hrelated.on?, ← hc] at hclause'
  exact ⟨p.exchange hc h.qualifier_eq h.binding_eq htarget hsized harity hoptions
    (onClause_eq_ok_iff.mpr ⟨clause', hclause', rfl⟩)⟩

/-- What can be built with placeholders can be with the parts that are supplied, unless an
association is missing. -/
theorem exists_given (p' : c.Parts q i') (hc : c.conditions = .standard) (hon : i.HasStaticOn)
    (h : i.Defers args c.config.optionTable i')
    (hfound : ¬ p'.sized.source.Missing args p'.sourceContext) : Nonempty (c.Parts q i) := by
  rcases JoinVars.splitTarget_cases h.target with
    ⟨f, f', -, herror⟩ | ⟨vars, e, e', htarget, hok, hdefers⟩
  · cases p'.target_eq.symm.trans herror
  cases p'.target_eq.symm.trans hok
  rcases JoinSource.ofExpr_cases_of_defers p'.sourceContext hdefers with
    ⟨f, f', -, herror⟩ | ⟨sized, sized', hsized, hok, hsource, harity⟩ | ⟨f, s', -, hok, hmissing⟩
  · cases p'.sized_eq.symm.trans herror
  · cases p'.sized_eq.symm.trans hok
    rcases JoinOptions.ofExpr?_cases .join h.options with
      ⟨f, f', -, herror⟩ | ⟨o, o', hoptions, hok, hrelated⟩
    · cases p'.options_eq.symm.trans herror
    · cases p'.options_eq.symm.trans hok
      let late : Context :=
        ⟨p'.joined, q.slotSchemas ++ sized.source.slotSchemas p'.arity, c.view⟩
      have hrefines : p'.context.Refines late :=
        Context.refines_of_schemas rfl
          ((SchemasRefine.refl _).append (hsource.slotSchemas p'.arity))
      obtain ⟨clause', hclause', -⟩ := onClause_eq_ok_iff.mp p'.on_eq
      rw [hc, hrelated.on?] at hclause'
      obtain ⟨clause, hclause⟩ := (OnClause.exists_iff_of_refines hrefines rfl
        (hon.on? hoptions).2).mpr ⟨clause', hclause'⟩
      rw [← hc] at hclause
      exact ⟨p'.exchange hc h.qualifier_eq.symm h.binding_eq.symm htarget hsized harity.symm
        hoptions (onClause_eq_ok_iff.mpr ⟨clause, hclause, rfl⟩)⟩
  · cases p'.sized_eq.symm.trans hok
    exact absurd hmissing hfound

/-! ## The names and the conditions of the joins -/

/-- The alias of the one join is that of the other, or a name that is left to supply there. -/
theorem Defers.joinAlias {p : c.Parts q i} {p' : c.Parts q i'} (h : p.Defers args p') :
    ∃ name?, p.joinAlias.Defers args name? p'.joinAlias := by
  have hnamed : p.options.alias? = none → ¬ i.IsNamed := by
    intro hnone hi
    obtain ⟨name, hname⟩ := hi.exists_alias? p.options_eq
    rw [hnone] at hname
    cases hname
  have halias := h.options.alias?
  unfold Parts.joinAlias
  generalize p.options.alias? = name? at halias hnamed ⊢
  generalize p'.options.alias? = name?' at halias ⊢
  cases halias with
  | none =>
    dsimp only
    unfold Query.inferAlias
    rw [h.source.inferredName? (hnamed rfl)]
    exact ⟨none, .same _⟩
  | some hname =>
    cases hname with
    | same => exact ⟨none, .same _⟩
    | supplied hp => exact ⟨_, .supplied hp⟩

/-- A condition that is written out is compiled with the join. -/
theorem exists_condition (p : c.Parts q i) (hc : c.conditions = .standard)
    (hon : ∀ pl, p.options.on? ≠ some (.interpolate pl)) :
    ∃ cond, OnClause.ofExpr? .standard p.context q.slotCount p.options.on? = .ok (.compiled cond) ∧
      p.on = (OnClause.compiled cond).behind (p.sized.source.naturalCondition? q.slotCount) ∧
      ∀ s ∈ cond.slots, s < q.slotCount + p.arity := by
  obtain ⟨clause, hclause, hbehind⟩ := onClause_eq_ok_iff.mp p.on_eq
  rw [hc] at hclause
  obtain ⟨cond, rfl⟩ := OnClause.exists_compiled hon hclause
  exact ⟨cond, hclause, hbehind.symm,
    (OnClause.orderly_ofExpr? p.context_below p.slotCount_lt _).post hclause⟩

end Compiler.Parts

end StagedJoin
