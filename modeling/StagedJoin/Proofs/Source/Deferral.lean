import StagedJoin.Proofs.Bound.Parts
import StagedJoin.Proofs.Compiler.Options

/-!
Parts of a join that are left to supply. A literal part may be replaced by a placeholder
whose argument stands for it. What is read then is the same, but that the part is given
on the one side and deferred on the other; and the one can be read if the other can,
unless an association that is given cannot be found.
-/
namespace StagedJoin

/-! ## What stands for a part -/

namespace Argument

def string? : Argument → Option String
  | .value (.string s) => some s
  | _ => none

/-- The strings that an argument gives, one of them without a list. -/
def strings? : Argument → Option (List String)
  | .value (.string s) => some [s]
  | .value (.list items) => items.mapM Value.asString?
  | _ => none

def value? : Argument → Option Value
  | .value v => some v
  | _ => none

def query? : Argument → Option Query
  | .queryable (.query q) => some q
  | _ => none

/-- The argument stands for the table that an expression names. -/
inductive StandsForTable : Argument → Expr → Prop
  | string (table : String) : StandsForTable (.value (.string table)) (.string table)
  | table (table : String) : StandsForTable (.queryable (.table table)) (.string table)
  | atom (schema : String) : StandsForTable (.value (.atom schema)) (.schema schema)
  | schema (schema : String) : StandsForTable (.queryable (.schema schema)) (.schema schema)
  | tableSchema (table schema : String) :
      StandsForTable (.queryable (.tableSchema table schema))
        (.tuple [.string table, .schema schema])
  | query {q : Query} (h : q.hasJoins = false) : StandsForTable (.queryable (.query q)) (.query q)

/-- The argument stands for the value of the option under a key. -/
inductive StandsForOption (key : String) (arg : Argument) (e : Expr) : Prop
  | name {name : String} (hkey : key = "as") (he : e.stagedAtom? = some (.literal name))
      (harg : arg.name? = some name)
  | tablePrefix {s : String} (hkey : key = "prefix") (he : e.stagedString? = some (.literal s))
      (harg : arg.string? = some s)
  | hints {ss : List String} (hkey : key = "hints") (he : e.stagedStrings? = some (.literal ss))
      (harg : arg.strings? = some ss)
  | extension {v : Value} (hkey : key ∉ JoinOptions.coreNames)
      (he : e.stagedValue? = some (.literal v)) (harg : arg.value? = some v)

end Argument

/-- What the argument of a placeholder is, seen as something of one kind. -/
def Arguments.getAs? {α : Type} (args : Arguments) (view : Argument → Option α)
    (p : Placeholder) : Option α :=
  (args.get? p).bind view

theorem Arguments.getAs?_eq_some_iff {α : Type} {args : Arguments} {view : Argument → Option α}
    {p : Placeholder} {a : α} :
    args.getAs? view p = some a ↔ ∃ arg, args.get? p = some arg ∧ view arg = some a :=
  Option.bind_eq_some_iff

/-- The part is the same, or it is given on the one side and what is supplied for it on the
other. -/
inductive Staged.Defers {α : Type} (value? : Placeholder → Option α) : Staged α → Staged α → Prop
  | same (s : Staged α) : Defers value? s s
  | supplied {p : Placeholder} {a : α} (h : value? p = some a) :
      Defers value? (.literal a) (.deferred p)

variable {args : Arguments} {table : List OptionSpec}

/-! ## Options -/

/-- The value of an option, or a placeholder for it where every specification of the key takes
either. -/
inductive Expr.OptionDefers (args : Arguments) (table : List OptionSpec) (key : String) :
    Expr → Expr → Prop
  | same (e : Expr) : OptionDefers args table key e e
  | supplied {p : Placeholder} {arg : Argument} {e : Expr} (hp : args.get? p = some arg)
      (h : arg.StandsForOption key e) (ht : ∀ spec ∈ table, spec.name = key →
        spec.takes e = true ∧ spec.takes (.interpolate p) = true) :
      OptionDefers args table key e (.interpolate p)

/-- The same options, or a keyword list of which some values are left to supply. -/
inductive Expr.OptionsDefer (args : Arguments) (table : List OptionSpec) :
    Option Expr → Option Expr → Prop
  | same (options : Option Expr) : OptionsDefer args table options options
  | keyword {pairs pairs' : List (String × Expr)}
      (h : PairsRelated (OptionDefers args table) pairs pairs') :
      OptionsDefer args table (some (.keyword pairs)) (some (.keyword pairs'))

namespace JoinOptions

/-- Valid options of which some values are left to supply. -/
def Defers (args : Arguments) (table : List OptionSpec) (o o' : JoinOptions) : Prop :=
  PairsRelated (Expr.OptionDefers args table) o.entries.entries o'.entries.entries

/-- Options are valid with the values that are given exactly when they are with the placeholders for
them. -/
theorem ofExpr?_cases (context : OptionContext) {options options' : Option Expr}
    (h : Expr.OptionsDefer args table options options') :
    (∃ f f', ofExpr? table context options = .error f ∧
        ofExpr? table context options' = .error f') ∨
      ∃ o o', ofExpr? table context options = .ok o ∧ ofExpr? table context options' = .ok o' ∧
        o.Defers args table o' := by
  cases h with
  | same options =>
    cases ofExpr? table context options with
    | error f => exact .inl ⟨f, f, rfl, rfl⟩
    | ok o => exact .inr ⟨o, o, rfl, rfl, PairsRelated.refl (fun key e => .same e) _⟩
  | @keyword pairs pairs' h =>
    change (∃ f f', ofPairs table context pairs = .error f ∧
        ofPairs table context pairs' = .error f') ∨
      ∃ o o', ofPairs table context pairs = .ok o ∧ ofPairs table context pairs' = .ok o' ∧
        o.Defers args table o'
    cases ho : ofPairs table context pairs with
    | ok o =>
      obtain ⟨o', ho', hrelated⟩ := ofPairs_related h (by
        intro spec hspec v w hdefers htakes
        cases hdefers with
        | same => exact htakes
        | supplied hp hs ht => exact (ht spec hspec rfl).2) ho
      exact .inr ⟨o, o', rfl, ho', hrelated⟩
    | error f =>
      cases ho' : ofPairs table context pairs' with
      | error f' => exact .inl ⟨f, f', rfl, rfl⟩
      | ok o' =>
        obtain ⟨o, hback, -⟩ := ofPairs_related h.flip (by
          intro spec hspec v w hdefers htakes
          cases hdefers with
          | same => exact htakes
          | supplied hp hs ht => exact (ht spec hspec rfl).1) ho'
        cases ho.symm.trans hback

section

variable {o o' : JoinOptions}

/-- A part that is read from an option is deferred where the value of the option is. -/
theorem Defers.read {α : Type} {key : String} {read : Expr → Option (Staged α)}
    {value? : Placeholder → Option α} (h : o.Defers args table o')
    (hread : ∀ p, read (.interpolate p) = some (.deferred p))
    (hkey : ∀ p arg e, args.get? p = some arg → arg.StandsForOption key e →
      ∃ a, read e = some (.literal a) ∧ value? p = some a) :
    Option.Rel (Staged.Defers value?) ((o.entries.get? key).bind read)
      ((o'.entries.get? key).bind read) := by
  rcases h.lookup_cases key with ⟨hv, hw⟩ | ⟨v, w, hv, hw, hdefers⟩
  · rw [OrderedMap.get?, OrderedMap.get?, hv, hw]
    exact .none
  · rw [OrderedMap.get?, OrderedMap.get?, hv, hw, Option.bind_some, Option.bind_some]
    cases hdefers with
    | same =>
      cases read v with
      | none => exact .none
      | some s => exact .some (.same s)
    | @supplied p arg _ hp hs =>
      obtain ⟨a, ha, hvalue⟩ := hkey p arg v hp hs
      rw [ha, hread]
      exact .some (.supplied hvalue)

theorem Defers.alias? (h : o.Defers args table o') :
    Option.Rel (Staged.Defers (args.getAs? Argument.name?)) o.alias? o'.alias? := by
  refine h.read (fun _ => rfl) fun p arg e hp hs => ?_
  cases hs with
  | name _ he harg => exact ⟨_, he, Arguments.getAs?_eq_some_iff.mpr ⟨arg, hp, harg⟩⟩
  | tablePrefix hkey => exact absurd hkey (by decide)
  | hints hkey => exact absurd hkey (by decide)
  | extension hkey => exact absurd (by decide) hkey

theorem Defers.tablePrefix? (h : o.Defers args table o') :
    Option.Rel (Staged.Defers (args.getAs? Argument.string?)) o.tablePrefix? o'.tablePrefix? := by
  refine h.read (fun _ => rfl) fun p arg e hp hs => ?_
  cases hs with
  | name hkey => exact absurd hkey (by decide)
  | tablePrefix _ he harg => exact ⟨_, he, Arguments.getAs?_eq_some_iff.mpr ⟨arg, hp, harg⟩⟩
  | hints hkey => exact absurd hkey (by decide)
  | extension hkey => exact absurd (by decide) hkey

theorem Defers.hints? (h : o.Defers args table o') :
    Option.Rel (Staged.Defers (args.getAs? Argument.strings?)) o.hints? o'.hints? := by
  refine h.read (fun _ => rfl) fun p arg e hp hs => ?_
  cases hs with
  | name hkey => exact absurd hkey (by decide)
  | tablePrefix hkey => exact absurd hkey (by decide)
  | hints _ he harg => exact ⟨_, he, Arguments.getAs?_eq_some_iff.mpr ⟨arg, hp, harg⟩⟩
  | extension hkey => exact absurd (by decide) hkey

theorem Defers.extensions (h : o.Defers args table o') :
    PairsRelated (fun _ => Staged.Defers (args.getAs? Argument.value?)) o.extensions.entries
      o'.extensions.entries := by
  refine h.filterMapList fun key v w hdefers => ?_
  cases hdefers with
  | same =>
    by_cases hcore : coreNames.contains key
    · exact .inl ⟨if_pos hcore, if_pos hcore⟩
    · rw [if_neg hcore]
      cases v.stagedValue? with
      | none => exact .inl ⟨rfl, rfl⟩
      | some s => exact .inr ⟨s, s, rfl, rfl, .same s⟩
  | @supplied p arg _ hp hs =>
    by_cases hcore : coreNames.contains key
    · exact .inl ⟨if_pos hcore, if_pos hcore⟩
    · have hkey : key ∉ coreNames := by simpa using hcore
      rw [if_neg hcore, if_neg hcore]
      cases hs with
      | extension _ he harg =>
        have hvalue := Arguments.getAs?_eq_some_iff.mpr ⟨arg, hp, harg⟩
        exact .inr ⟨_, _, he, rfl, .supplied hvalue⟩
      | _ hcontra => exact absurd (by rw [hcontra]; decide) hkey

/-- The condition stays where it is. -/
theorem Defers.on? (h : o.Defers args table o') : o'.on? = o.on? := by
  rcases h.lookup_cases "on" with ⟨hv, hw⟩ | ⟨v, w, hv, hw, hdefers⟩
  · exact hw.trans hv.symm
  · cases hdefers with
    | same => exact hw.trans hv.symm
    | supplied hp hs =>
      cases hs with
      | extension hkey => exact absurd (by decide) hkey
      | _ hkey => exact absurd hkey (by decide)

end

end JoinOptions

/-! ## Targets -/

namespace Expr

/-- The number of variables in front of `in`. -/
def boundCount : Expr → Nat
  | .list items => items.length
  | _ => 1

/-- The query of a subquery or, where there is a variable for each of its slots, a placeholder for
it. -/
inductive QueryDefers (args : Arguments) (given : Option Nat) : Expr → Expr → Prop
  | same (e : Expr) : QueryDefers args given e e
  | supplied {p : Placeholder} {q : Query} (hp : args.getAs? Argument.query? p = some q)
      (hgiven : given = some q.slotCount) : QueryDefers args given (.query q) (.interpolate p)

/-- A source of which parts are left to supply. The field of an association would name the join, so
it is only left open where the join is `named`. -/
inductive SourceDefers (args : Arguments) (given : Option Nat) (named : Prop) : Expr → Expr → Prop
  | same (e : Expr) : SourceDefers args given named e e
  | table {p : Placeholder} {arg : Argument} {e : Expr} (hp : args.get? p = some arg)
      (h : arg.StandsForTable e) : SourceDefers args given named e (.interpolate p)
  | subquery {inner inner' : Expr} {options options' : Option Expr}
      (hinner : QueryDefers args given inner inner')
      (ho : OptionsDefer args JoinOptions.subqueryTable options options') :
      SourceDefers args given named (.call "subquery" (inner :: options.toList))
        (.call "subquery" (inner' :: options'.toList))
  | association {owner field : Expr} {p : Placeholder} {name : String} (hnamed : named)
      (hfield : JoinSource.associationField field = .ok (.literal name))
      (hp : args.getAs? Argument.name? p = some name) :
      SourceDefers args given named (.call "assoc" [owner, field])
        (.call "assoc" [owner, .interpolate p])

/-- The same variables, or none, in front of a source of which parts are left to supply. -/
inductive TargetDefers (args : Arguments) (named : Prop) : Expr → Expr → Prop
  | bound {vars e e' : Expr} (h : SourceDefers args (some vars.boundCount) named e e') :
      TargetDefers args named (.binary .mem vars e) (.binary .mem vars e')
  | alone {e e' : Expr} (h : SourceDefers args none named e e') : TargetDefers args named e e'

end Expr

namespace JoinVars

theorem arity?_of_ofExpr {e : Expr} {vars : JoinVars} (h : ofExpr e = .ok vars) :
    vars.arity? = some e.boundCount := by
  unfold ofExpr at h
  split at h
  · cases h
  · obtain ⟨names, hnames, h⟩ := bind_eq_ok.mp h
    cases h
    exact congrArg some (length_namesOf hnames)
  · rename_i hlist
    obtain ⟨name, -, h⟩ := bind_eq_ok.mp h
    cases h
    cases e with
    | list items => exact absurd rfl (hlist items)
    | _ => rfl

/-- The two targets have the same variables, or neither is one. -/
theorem splitTarget_cases {named : Prop} {target target' : Expr}
    (h : Expr.TargetDefers args named target target') :
    (∃ f f', splitTarget target = .error f ∧ splitTarget target' = .error f') ∨
      ∃ vars e e', splitTarget target = .ok (vars, e) ∧ splitTarget target' = .ok (vars, e') ∧
        Expr.SourceDefers args vars.arity? named e e' := by
  cases h with
  | @bound left e e' h =>
    cases hvars : ofExpr left with
    | error fault =>
      simp only [splitTarget, hvars]
      exact .inl ⟨_, _, rfl, rfl⟩
    | ok vars =>
      simp only [splitTarget, hvars]
      rw [← arity?_of_ofExpr hvars] at h
      exact .inr ⟨vars, e, e', rfl, rfl, h⟩
  | alone h =>
    cases h with
    | same =>
      cases splitTarget target with
      | error f => exact .inl ⟨f, f, rfl, rfl⟩
      | ok r => exact .inr ⟨r.1, r.2, r.2, rfl, rfl, .same r.2⟩
    | table hp h =>
      refine .inr ⟨.absent, _, _, ?_, rfl, .table hp h⟩
      cases h <;> rfl
    | subquery hinner ho => exact .inr ⟨.absent, _, _, rfl, rfl, .subquery hinner ho⟩
    | association hnamed hfield hp =>
      exact .inr ⟨.absent, _, _, rfl, rfl, .association hnamed hfield hp⟩

end JoinVars

/-! ## Sources -/

namespace JoinSource

/-- A source with parts that are given, and what it is where they are left to supply. -/
inductive Defers (args : Arguments) (ctx : SourceContext) (named : Prop) :
    JoinSource → JoinSource → Prop
  | same (source : JoinSource) : Defers args ctx named source source
  | table {p : Placeholder} {arg : Argument} {ref : TableRef} (hp : args.get? p = some arg)
      (href : Binder.runtimeTable arg = .ok ref) : Defers args ctx named (.table ref) (.runtime p)
  | subquery {query query' : Staged Query} {tablePrefix tablePrefix' : Option (Staged String)}
      (hq : query.Defers (args.getAs? Argument.query?) query')
      (hp : Option.Rel (Staged.Defers (args.getAs? Argument.string?)) tablePrefix tablePrefix') :
      Defers args ctx named (.subquery query tablePrefix) (.subquery query' tablePrefix')
  | association {owner : Nat} {name : String} {p : Placeholder}
      {resolved : Option ResolvedAssociation} (hnamed : named)
      (hp : args.getAs? Argument.name? p = some name)
      (hr : ∀ r, resolved = some r → ∃ schema, ctx.schema? owner = some schema ∧
        ctx.view.association? schema name = some r) :
      Defers args ctx named (.association ⟨owner, .literal name, resolved⟩)
        (.association ⟨owner, .deferred p, none⟩)

/-- The association is left to supply, and the one that is supplied is not one of the schema of its
owner. -/
def Missing (args : Arguments) (ctx : SourceContext) (source : JoinSource) : Prop :=
  ∃ owner p name schema, source = .association ⟨owner, .deferred p, none⟩ ∧
    args.getAs? Argument.name? p = some name ∧ ctx.schema? owner = some schema ∧
    ctx.view.association? schema name = none

variable {ctx : SourceContext} {given : Option Nat} {named : Prop}

theorem ofExpr_of_standsForTable (ctx : SourceContext) {arg : Argument} {e : Expr}
    (h : arg.StandsForTable e) :
    ∃ ref, Binder.runtimeTable arg = .ok ref ∧ ofExpr ctx e = .ok { source := .table ref } := by
  cases h with
  | query hjoins =>
    simp only [Binder.runtimeTable, ofExpr, ofQuery, hjoins]
    exact ⟨_, rfl, rfl⟩
  | _ => exact ⟨_, rfl, rfl⟩

theorem ofExpr_subquery (inner : Expr) (options : Option Expr) :
    ofExpr ctx (.call "subquery" (inner :: options.toList)) =
      ofSubquery (.call "subquery" (inner :: options.toList)) inner options := by
  cases options <;> rfl

/-- A subquery can be read with parts that are given exactly when it can with placeholders. -/
theorem ofSubquery_cases_of_defers {call call' inner inner' : Expr} {options options' : Option Expr}
    {vars : JoinVars} (hinner : Expr.QueryDefers args vars.arity? inner inner')
    (ho : Expr.OptionsDefer args JoinOptions.subqueryTable options options') :
    (∃ f f', ofSubquery call inner options = .error f ∧
        ofSubquery call' inner' options' = .error f') ∨
      ∃ sized sized', ofSubquery call inner options = .ok sized ∧
        ofSubquery call' inner' options' = .ok sized' ∧
        sized.source.Defers args ctx named sized'.source ∧
        vars.arityWith sized' = vars.arityWith sized := by
  rcases JoinOptions.ofExpr?_cases .subquery ho with
    ⟨f, f', herror, herror'⟩ | ⟨o, o', hok, hok', hdefers⟩
  · simp only [ofSubquery, herror, herror', error_bind]
    exact .inl ⟨f, f', rfl, rfl⟩
  · have hprefix := hdefers.tablePrefix?
    simp only [ofSubquery, hok, hok', ok_bind]
    cases hinner with
    | same =>
      cases inner with
      | query q => exact .inr ⟨_, _, rfl, rfl, .subquery (.same _) hprefix, rfl⟩
      | interpolate p => exact .inr ⟨_, _, rfl, rfl, .subquery (.same _) hprefix, rfl⟩
      | _ => exact .inl ⟨_, _, rfl, rfl⟩
    | @supplied p q hp hgiven =>
      refine .inr ⟨_, _, rfl, rfl, .subquery (.supplied hp) hprefix, ?_⟩
      simp only [JoinVars.arityWith, hgiven]
      rfl

/-- An association that is given can be read exactly when it can with a placeholder for its field
and it is there, if the schema of its owner is known. -/
theorem ofAssociation_cases_of_defers {call call' owner field : Expr} {p : Placeholder}
    {name : String} (hnamed : named) (hfield : associationField field = .ok (.literal name))
    (hp : args.getAs? Argument.name? p = some name) :
    (∃ f f', ofAssociation ctx call owner field = .error f ∧
        ofAssociation ctx call' owner (.interpolate p) = .error f') ∨
      (∃ sized sized', ofAssociation ctx call owner field = .ok sized ∧
        ofAssociation ctx call' owner (.interpolate p) = .ok sized' ∧
        sized.source.Defers args ctx named sized'.source ∧
        ctx.vars.arityWith sized' = ctx.vars.arityWith sized) ∨
      ∃ f sized', ofAssociation ctx call owner field = .error f ∧
        ofAssociation ctx call' owner (.interpolate p) = .ok sized' ∧
        sized'.source.Missing args ctx := by
  cases hslot : ownerSlot ctx owner with
  | error f =>
    simp only [ofAssociation, hslot, error_bind]
    exact .inl ⟨f, f, rfl, rfl⟩
  | ok slot =>
    have hlate : ofAssociation ctx call' owner (.interpolate p) =
        .ok { source := .association ⟨slot, .deferred p, none⟩ } := by
      simp only [ofAssociation, hslot, associationField, ok_bind]
      unfold resolveAssociation
      cases ctx.schema? slot <;> rfl
    rw [hlate]
    simp only [ofAssociation, hslot, hfield, ok_bind]
    cases hschema : ctx.schema? slot with
    | none =>
      simp only [resolveAssociation, hschema, ok_bind]
      exact .inr (.inl ⟨_, _, rfl, rfl, .association hnamed hp (fun _ h => nomatch h), rfl⟩)
    | some schema =>
      cases hassociation : ctx.view.association? schema name with
      | none =>
        simp only [resolveAssociation, hschema, hassociation, error_bind]
        exact .inr (.inr ⟨_, _, rfl, rfl, slot, p, name, schema, rfl, hp, hschema, hassociation⟩)
      | some r =>
        simp only [resolveAssociation, hschema, hassociation, ok_bind]
        refine .inr (.inl ⟨_, _, rfl, rfl, .association hnamed hp ?_, rfl⟩)
        rintro _ ⟨⟩
        exact ⟨schema, hschema, hassociation⟩

/-- A source can be read with parts that are given exactly when it can with placeholders for them,
but for an association that is missing. -/
theorem ofExpr_cases_of_defers (ctx : SourceContext) {e e' : Expr}
    (h : Expr.SourceDefers args ctx.vars.arity? named e e') :
    (∃ f f', ofExpr ctx e = .error f ∧ ofExpr ctx e' = .error f') ∨
      (∃ sized sized', ofExpr ctx e = .ok sized ∧ ofExpr ctx e' = .ok sized' ∧
        sized.source.Defers args ctx named sized'.source ∧
        ctx.vars.arityWith sized' = ctx.vars.arityWith sized) ∨
      ∃ f sized', ofExpr ctx e = .error f ∧ ofExpr ctx e' = .ok sized' ∧
        sized'.source.Missing args ctx := by
  cases h with
  | same =>
    cases ofExpr ctx e with
    | error f => exact .inl ⟨f, f, rfl, rfl⟩
    | ok sized => exact .inr (.inl ⟨sized, sized, rfl, rfl, .same _, rfl⟩)
  | table hp h =>
    obtain ⟨ref, href, he⟩ := ofExpr_of_standsForTable ctx h
    exact .inr (.inl ⟨_, _, he, rfl, .table hp href, rfl⟩)
  | subquery hinner ho =>
    rw [ofExpr_subquery, ofExpr_subquery]
    exact (ofSubquery_cases_of_defers hinner ho).imp id .inl
  | association hnamed hfield hp => exact ofAssociation_cases_of_defers hnamed hfield hp

/-- But for an association that is left open, the source suggests the same name. -/
theorem Defers.inferredName? {source source' : JoinSource}
    (h : source.Defers args ctx named source') (hnamed : ¬ named) :
    source'.inferredName? = source.inferredName? := by
  cases h with
  | association h => exact absurd h hnamed
  | _ => rfl

end JoinSource

end StagedJoin
