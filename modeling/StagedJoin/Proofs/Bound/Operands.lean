import StagedJoin.Proofs.Bound.Arguments
import StagedJoin.Proofs.Bound.Arrival
import StagedJoin.Proofs.Bound.Dynamic
import StagedJoin.Proofs.Condition.Operands
import StagedJoin.Proofs.Query.Growth

/-!
Interpolations checked against fields. An interpolation that is compared with a field is
checked against the type of the field as binding finds it, wherever the schema of the field
becomes known; only an array behind `in` takes its type where the clause is compiled, and
only the base can have another schema then.
-/
namespace StagedJoin

/-! ## Types found late -/

namespace Context

variable {early late ctx : Context} {offset slot : Nat} {name : String} {t : ColumnType}
  {demand : Demand}

/-- The field of the slot has the type. -/
def Declares (ctx : Context) (slot : Nat) (name : String) (t : ColumnType) : Prop :=
  ∃ schema, ctx.schema? slot = some schema ∧ ctx.view.fieldType? schema name = some t

theorem Declares.tag_eq (h : ctx.Declares slot name t) : ctx.tag slot name = .type t := by
  obtain ⟨schema, hschema, ht⟩ := h
  simp only [tag, hschema, Option.bind_some, ht]

theorem Declares.resolve_demand (h : ctx.Declares slot name t) (demand : Demand) :
    ctx.resolve (demand.tag (ctx.tag slot name)) = .type (demand.type t) := by
  rw [h.tag_eq]
  cases demand <;> rfl

/-- What a field asks for is found late, if its schema was not known early or is the same; for an
array, it must have been known. -/
theorem Declares.resolve_shift (h : late.Declares (shiftSlot offset slot) name t)
    (hview : late.view = early.view)
    (hsame : early.schema? slot = none ∨
      early.schema? slot = late.schema? (shiftSlot offset slot))
    (harray : demand = .array → (early.schema? slot).isSome) :
    late.resolve ((demand.tag (early.tag slot name)).shift offset) = .type (demand.type t) := by
  cases hschema : early.schema? slot with
  | none =>
    cases demand with
    | item =>
      have htag : early.tag slot name = .field slot name := by rw [tag, hschema]; rfl
      rw [htag]
      exact h.tag_eq
    | array =>
      have hsome := harray rfl
      rw [hschema] at hsome
      cases hsome
  | some schema =>
    have hearly : early.Declares slot name t := by
      obtain ⟨schema', hschema', ht⟩ := h
      have hlate := hsame.resolve_left (by rw [hschema]; exact Option.some_ne_none _)
      exact ⟨schema', hlate.trans hschema', hview ▸ ht⟩
    rw [hearly.tag_eq]
    cases demand <;> rfl

end Context

/-! ## Parameters that have moved -/

namespace OnClause.HasParam

variable {clause : OnClause} {p : Placeholder} {tag : TypeTag}

theorem behind (h : clause.HasParam p tag) (natural? : Option Condition) :
    (clause.behind natural?).HasParam p tag := by
  obtain ⟨c, rfl, hparam⟩ := h
  cases natural? with
  | none => exact ⟨c, rfl, hparam⟩
  | some natural => exact ⟨natural.and c, rfl, c.mem_params_and natural hparam⟩

theorem shift (h : clause.HasParam p tag) (offset : Nat) :
    (clause.shift offset).HasParam p (tag.shift offset) := by
  obtain ⟨c, rfl, hparam⟩ := h
  exact ⟨c.shift offset, rfl, List.mem_map.mpr ⟨_, hparam, rfl⟩⟩

end OnClause.HasParam

namespace Binder.Arrival

variable {b : Binder} {later : Query} {k : Nat} {p : Placeholder} {tag : TypeTag}

/-- A clause that is written has its parameters when binding arrives. -/
theorem mem_params_of_hasParam (a : b.Arrival later k) (h : a.join.on.HasParam p tag) :
    ⟨.deferred p, tag⟩ ∈ a.condition.params ∧ a.args = b.arguments := by
  obtain ⟨c, hon, hparam⟩ := h
  have hgiven := a.given_eq
  rw [onCondition_eq, hon] at hgiven
  obtain ⟨hc, hargs⟩ := Prod.mk.inj (Except.ok.inj hgiven)
  refine ⟨?_, hargs.symm⟩
  rw [condition, ← hc]
  exact mem_params_conjoin _ hparam

/-- A condition that is supplied is compiled when binding arrives, with all that is known then. -/
theorem exists_dynamic (a : b.Arrival later k) {natural : Option Condition} {d : DynamicCondition}
    (hon : a.join.on = .deferred p natural) (harg : b.arguments.get? p = some (.dynamic d))
    (hb : b.compiler.conditions = .standard) :
    ∃ scope, Scope.resolve (a.join.slot + a.join.arity) a.slots.aliases (.list d.binding) =
      .ok scope ∧ a.args = d.arguments ∧
      ∀ n ∈ d.expr.nodes, ∀ p' tag,
        n.Beside ⟨scope, a.context.schemas, b.compiler.view⟩ p' tag →
          ⟨.deferred p', tag⟩ ∈ a.condition.params := by
  have hgiven := a.given_eq
  rw [onCondition_eq, hon] at hgiven
  obtain ⟨⟨c, args⟩, hsupplied, he⟩ := map_eq_ok.mp hgiven
  obtain ⟨hc, hargs⟩ := Prod.mk.inj he
  obtain ⟨arg, hrequire, hsupplied⟩ := bind_eq_ok.mp hsupplied
  cases harg.symm.trans (Arguments.require_eq_ok_iff.mp hrequire)
  obtain ⟨cond, hcond, hsupplied⟩ := bind_eq_ok.mp hsupplied
  cases hsupplied
  obtain ⟨scope, hscope, hcompile⟩ := bind_eq_ok.mp hcond
  rw [hb] at hcompile
  refine ⟨scope, hscope, hargs.symm, fun n hn p' tag hbeside => ?_⟩
  rw [condition, ← hc]
  exact mem_params_conjoin _ (mem_params_conjoin _
    (Condition.mem_params_of_ofExpr hbeside hcompile hn))

/-- The value of a parameter that has been bound, and that it has the type it resolves to. -/
theorem Passed.exists_value {a : b.Arrival later k} {bound : BoundJoin} {bq : BoundQuery}
    (h : a.Passed bound bq) {t : ColumnType} (hparam : ⟨.deferred p, tag⟩ ∈ a.condition.params)
    (ht : a.context.resolve tag = .type t) :
    ∃ v, a.args.get? p = some (.value v) ∧ t.accepts v ∧ (v, .type t) ∈ bound.on.params := by
  obtain ⟨i, hi⟩ := List.getElem?_of_mem hparam
  obtain ⟨hlt, hget⟩ := List.getElem?_eq_some_iff.mp hi
  have hparams := mapM_eq_ok_iff.mp h.params_eq
  have hlt' := hparams.length_eq ▸ hlt
  have hbind : bindParam a.context a.args a.condition.params[i] = .ok bound.on.params[i] :=
    hparams.get hlt hlt'
  rw [hget] at hbind
  obtain ⟨hvalue, htag⟩ := bindParam_eq_ok_iff.mp hbind
  obtain ⟨hplain, haccepts⟩ := paramValue_eq_ok_iff.mp hvalue
  have hgiven : a.args.get? p = some (.value bound.on.params[i].1) := by
    rcases plainValue_eq_ok_iff.mp hplain with hliteral | ⟨p', hp', hgiven⟩
    · cases hliteral
    · cases hp'
      exact hgiven
  refine ⟨_, hgiven, haccepts t ht, ?_⟩
  have hpair : (bound.on.params[i].1, TypeTag.type t) = bound.on.params[i] :=
    Prod.ext rfl (ht.symm.trans htag)
  rw [hpair]
  exact List.getElem_mem hlt'

end Binder.Arrival

/-! ## The clause of an invocation, where it has moved -/

namespace Query.GrownFrom

variable {b : Binder} {c : Compiler} {q later : Query} {i : Invocation} {k offset : Nat}

theorem movesTo (h : later.GrownFrom c q i k offset) (p : c.Parts q i) (a : b.Arrival later k) :
    p.join.MovesTo offset a.join := by
  obtain ⟨j, hj, hmove⟩ := h.exists_join p
  cases hj.symm.trans a.join_eq
  exact hmove

/-- A parameter of the clause as it was compiled is there when binding arrives, moved. -/
theorem mem_params (h : later.GrownFrom c q i k offset) (p : c.Parts q i) (a : b.Arrival later k)
    {written : OnClause} {ph : Placeholder} {tag : TypeTag}
    (hwritten : OnClause.ofExpr? c.conditions p.context q.slotCount p.options.on? = .ok written)
    (hparam : written.HasParam ph tag) :
    ⟨.deferred ph, tag.shift offset⟩ ∈ a.condition.params ∧ a.args = b.arguments := by
  obtain ⟨written', hwritten', hon⟩ := Compiler.onClause_eq_ok_iff.mp p.on_eq
  cases hwritten.symm.trans hwritten'
  apply a.mem_params_of_hasParam
  rw [(h.movesTo p a).on_eq]
  change (p.on.shift offset).HasParam ph _
  rw [← hon]
  exact (hparam.behind _).shift offset

theorem exists_written (p : c.Parts q i) : ∃ written,
    OnClause.ofExpr? c.conditions p.context q.slotCount p.options.on? = .ok written := by
  obtain ⟨written, hwritten, -⟩ := Compiler.onClause_eq_ok_iff.mp p.on_eq
  exact ⟨written, hwritten⟩

/-- The schema of the base where the invocation was built is unknown, or is that of the base now. -/
def KeepsBase (q later : Query) : Prop :=
  q.base.source.schema = none ∨ q.base.source.schema = later.base.source.schema

/-- What was known of a slot where the clause was compiled is what is known when binding arrives,
unless the base has been exchanged. -/
theorem schema?_eq (h : later.GrownFrom c q i k offset) (p : c.Parts q i) (a : b.Arrival later k)
    {slot : Nat} (hslot : slot < q.slotCount + p.arity) (hbase : slot = 0 → KeepsBase q later) :
    p.context.schema? slot = none ∨
      p.context.schema? slot = a.context.schema? (shiftSlot offset slot) := by
  have hmove := h.movesTo p a
  cases hschema : p.context.schema? slot with
  | none => exact .inl rfl
  | some schema =>
    right
    by_cases hzero : slot = 0
    · subst hzero
      have hearly : q.base.source.schema = some schema := hschema
      have hlate : a.context.schema? 0 = later.base.source.schema := by
        change (a.slots.schemas ++ _)[0]?.join = _
        rw [Binder.schemas_of_bindJoins a.before_eq]
        rfl
      rw [shiftSlot_zero, hlate, ← (hbase rfl).resolve_left (by simp [hearly]), hearly]
    · have hknown := h.getElem?_slotSchemas p hzero (Option.join_eq_some_iff.mp hschema)
      refine (a.schema?_of_known h.reachable_later ?_ hknown).symm
      rw [hmove.slot_eq, hmove.arity_eq, shiftSlot_of_pos (Nat.pos_of_ne_zero hzero)]
      change _ < q.slotCount + offset + p.arity
      omega

/-- What a field asks for where the clause was compiled, an interpolation is asked for when binding
arrives. -/
theorem exists_param (h : later.GrownFrom c q i k offset) (p : c.Parts q i) (a : b.Arrival later k)
    (hview : b.compiler.view = c.view) {written : OnClause} {ph : Placeholder} {slot : Nat}
    {name : String} {demand : Demand} {t : ColumnType}
    (hwritten : OnClause.ofExpr? c.conditions p.context q.slotCount p.options.on? = .ok written)
    (hparam : written.HasParam ph (demand.tag (p.context.tag slot name)))
    (hslot : slot < q.slotCount + p.arity) (hbase : slot = 0 → KeepsBase q later)
    (harray : demand = .array → (p.context.schema? slot).isSome)
    (ht : a.context.Declares (shiftSlot offset slot) name t) :
    ∃ tag, ⟨.deferred ph, tag⟩ ∈ a.condition.params ∧ a.args = b.arguments ∧
      a.context.resolve tag = .type (demand.type t) := by
  obtain ⟨hmem, hargs⟩ := h.mem_params p a hwritten hparam
  have hlate : a.context.view = p.context.view := hview
  exact ⟨_, hmem, hargs, ht.resolve_shift hlate (h.schema?_eq p a hslot hbase) harray⟩

/-- A clause that is left to supply is still left to supply when binding arrives. -/
theorem exists_deferred (h : later.GrownFrom c q i k offset) (p : c.Parts q i)
    (a : b.Arrival later k) {ph : Placeholder} (hon : p.options.on? = some (.interpolate ph)) :
    ∃ natural, a.join.on = .deferred ph natural := by
  obtain ⟨written, hwritten, hclause⟩ := Compiler.onClause_eq_ok_iff.mp p.on_eq
  rw [hon] at hwritten
  cases hwritten
  rw [(h.movesTo p a).on_eq]
  change ∃ natural, p.on.shift offset = _
  rw [← hclause, OnClause.shift_behind]
  cases (p.sized.source.naturalCondition? q.slotCount).map (Condition.shift offset) with
  | none => exact ⟨none, rfl⟩
  | some natural => exact ⟨some natural, rfl⟩

end Query.GrownFrom

/-- What a bound query shows of its slots. -/
def BoundQuery.context (bq : BoundQuery) (view : SchemaView) : Context := ⟨{}, bq.slotSchemas, view⟩

namespace Binder.Arrival.Passed

variable {b : Binder} {later : Query} {k slot : Nat} {a : b.Arrival later k} {bound : BoundJoin}
  {bq : BoundQuery} {name : String} {t : ColumnType}

/-- Up to the join, the bound query shows what binding has seen at the clause. -/
theorem declares (h : a.Passed bound bq) (hslot : slot < a.join.slot + a.join.arity)
    (ht : (bq.context b.compiler.view).Declares slot name t) :
    a.context.Declares slot name t := by
  obtain ⟨schema, hschema, ht⟩ := ht
  refine ⟨schema, ?_, ht⟩
  obtain ⟨more, hmore⟩ := h.schemas_eq
  change bq.slotSchemas[slot]?.join = some schema at hschema
  rw [← hmore, List.getElem?_append_left (by rwa [a.length_schemas])] at hschema
  exact hschema

end Binder.Arrival.Passed

/-- A field that the bound query shows at a slot of the clause, moved, is seen at the clause. -/
theorem Query.GrownFrom.declares {b : Binder} {c : Compiler} {q later : Query} {i : Invocation}
    {k offset slot : Nat} {a : b.Arrival later k} {bound : BoundJoin} {bq : BoundQuery}
    {name : String} {t : ColumnType} (h : later.GrownFrom c q i k offset) (p : c.Parts q i)
    (hpassed : a.Passed bound bq) (hslot : slot < q.slotCount + p.arity)
    (ht : (bq.context b.compiler.view).Declares (shiftSlot offset slot) name t) :
    a.context.Declares (shiftSlot offset slot) name t := by
  have hmove := h.movesTo p a
  have hshift := shiftSlot_lt offset hslot
  have hown : a.join.slot + a.join.arity = q.slotCount + p.arity + offset := by
    rw [hmove.slot_eq, hmove.arity_eq]
    change q.slotCount + offset + p.arity = _
    omega
  exact hpassed.declares (by rwa [hown]) ht

theorem Expr.Asks.slot_lt {c : Compiler} {q : Query} {i : Invocation} (p : c.Parts q i)
    {e : Expr} {ph : Placeholder} {slot : Nat} {name : String} {demand : Demand}
    (h : e.Asks p.joined q.slotCount ph slot name demand) : slot < q.slotCount + p.arity := by
  cases h with
  | node _ _ hslot => exact p.context_below _ _ hslot
  | pair _ => exact Nat.lt_add_of_pos_right p.arity_pos

/-- Wherever the join of an invocation has gone, and whenever the schema of a field becomes known,
binding checks an interpolation that is compared with the field against the type of the field:
in a clause that is written or in a dynamic condition. In a clause that is written the base must
not have been exchanged for one with another schema, and an array behind `in` is checked only if
the schema was known when the clause was compiled. -/
theorem Query.GrownFrom.operands_checked {c binder : Compiler} {q later : Query} {i : Invocation}
    {k offset : Nat} {args : Arguments} {bq : BoundQuery}
    (h : later.GrownFrom c q i k offset) (hc : c.conditions = .standard)
    (hbinder : binder.conditions = .standard) (hview : binder.view = c.view)
    (hbind : later.bind args binder = .ok bq) (p : c.Parts q i) :
    ∃ bound, bq.joins[k]? = some bound ∧ bound.slot = q.slotCount + offset ∧
      (∀ e ph slot name demand t, p.options.on? = some e →
        e.Asks p.joined q.slotCount ph slot name demand →
        (bq.context binder.view).Declares (shiftSlot offset slot) name t →
        (slot = 0 → KeepsBase q later) → (demand = .array → (p.context.schema? slot).isSome) →
          ∃ v, args.get? ph = some (.value v) ∧ (demand.type t).accepts v ∧
            (v, .type (demand.type t)) ∈ bound.on.params) ∧
      ∀ ph d, p.options.on? = some (.interpolate ph) → args.get? ph = some (.dynamic d) →
        ∃ scope, Scope.resolve (bound.slot + bound.arity) bq.aliases (.list d.binding) =
            .ok scope ∧
          ∀ n ∈ d.expr.nodes, ∀ owner name ph' demand slot t, n.Compares owner name ph' demand →
            scope.slot? owner = some slot → (bq.context binder.view).Declares slot name t →
              ∃ v, d.arguments.get? ph' = some (.value v) ∧ (demand.type t).accepts v ∧
                (v, .type (demand.type t)) ∈ bound.on.params := by
  obtain ⟨j, hj, -⟩ := h.exists_join p
  let b : Binder := ⟨binder, args⟩
  obtain ⟨a, bound, hpassed⟩ := Binder.exists_passed_of_bind (b := b) hbind hj
  have hmove := h.movesTo p a
  have hslot : bound.slot = q.slotCount + offset := hpassed.slot_eq.trans hmove.slot_eq
  refine ⟨bound, hpassed.join_eq, hslot, ?_, ?_⟩
  · intro e ph slot name demand t hon hasks hdeclares hbase harray
    have hlt := hasks.slot_lt p
    obtain ⟨written, hwritten⟩ := exists_written p
    have hparam : written.HasParam ph (demand.tag (p.context.tag slot name)) := by
      rw [hc, hon] at hwritten
      exact hasks.hasParam hwritten
    have hlate := h.declares p hpassed hlt hdeclares
    obtain ⟨tag, hmem, hargs, hresolve⟩ :=
      h.exists_param p a hview hwritten hparam hlt hbase harray hlate
    obtain ⟨v, hv, haccepts, hbound⟩ := hpassed.exists_value hmem hresolve
    exact ⟨v, by rwa [hargs] at hv, haccepts, hbound⟩
  · intro ph d hon harg
    obtain ⟨natural, hdeferred⟩ := h.exists_deferred p a hon
    obtain ⟨scope, hscope, hargs, hparams⟩ := a.exists_dynamic hdeferred harg hbinder
    have hnext : a.join.slot + a.join.arity = bound.slot + bound.arity := by
      rw [hpassed.slot_eq, hpassed.arity_eq]
    rw [hnext] at hscope
    refine ⟨scope, Scope.resolve_of_keepsBelow (hpassed.aliases_extend.keepsBelow _) hscope, ?_⟩
    intro n hn owner name ph' demand slot t hcompares howner hdeclares
    obtain ⟨hinView, hslots⟩ := Scope.inView_of_resolve hscope
    have hlt : slot < a.join.slot + a.join.arity := by
      rw [hnext, ← hslots]
      exact hinView owner slot howner
    have hlate := hpassed.declares hlt hdeclares
    have hmem := hparams n hn ph' _ (hcompares.beside howner)
    have hresolve := hlate.resolve_demand demand
    obtain ⟨v, hv, haccepts, hbound⟩ := hpassed.exists_value hmem hresolve
    exact ⟨v, by rwa [hargs] at hv, haccepts, hbound⟩

namespace Sample

/-- The clause of the comments, compiled where a score is known to be an integer. -/
def typedClause (slot : Nat) : OnClause :=
  .compiled ⟨.binary .and (.eq (.field slot "post_id") (.field 0 "id"))
    (.binary .gt (.field slot "score") (.param 0)), [⟨.deferred (.positional 0), .type .integer⟩]⟩

def typedComments : Query := ⟨posts.base, [{ commentsJoin 1 with on := typedClause 1 }], .empty⟩

/-- Behind the comments of another query. -/
def absorbedComments : Query :=
  ⟨posts.base, [commentsJoin 1, { commentsJoin 2 with on := typedClause 2 }], .empty⟩

theorem grownFrom_absorbedComments : absorbedComments.GrownFrom binder posts comments 1 1 where
  reachable := .ofTableRef _
  inner := fun _ h => nomatch h
  grows := ⟨typedComments, 1, rfl, .absorbed .refl reachable_postsWithComments rfl, rfl⟩

/-- What the comments are asked for. -/
def commentsAsked : Expr :=
  .binary .and (.binary .eq (.field "c" "post_id") (.field "p" "id"))
    (.binary .gt (.field "c" "score") (.interpolate (.positional 0)))

/-- Two slots behind the base, the score is still checked against the integers of its field. -/
theorem operands_checked_comments :
    absorbedComments.bind (scoreAbove 3) binder =
        .ok ⟨posts.base, [boundComments 1 3, boundComments 2 3], .empty⟩ ∧
      ∃ v, (scoreAbove 3).get? (.positional 0) = some (.value v) ∧
        ColumnType.integer.accepts v ∧ (v, .type .integer) ∈ (boundComments 2 3).on.params := by
  have hbind : absorbedComments.bind (scoreAbove 3) binder =
      .ok ⟨posts.base, [boundComments 1 3, boundComments 2 3], .empty⟩ := rfl
  have hread : OnClause.ofExpr? .standard commentsParts.context posts.slotCount
      (some commentsAsked) = .ok (typedClause 1) := rfl
  obtain ⟨parts, hcontext, -, -⟩ := commentsParts.exchangeOn rfl (fun _ h => nomatch h) hread
  have hjoined : parts.joined = commentsParts.joined := congrArg Context.scope hcontext
  obtain ⟨bound, hbound, -, hwritten, -⟩ :=
    grownFrom_absorbedComments.operands_checked rfl rfl rfl hbind parts
  cases hbound
  have hasks : commentsAsked.Asks parts.joined posts.slotCount (.positional 0) 1 "score" .item := by
    rw [hjoined]
    refine .node ?_ (.right .gt nofun "c" "score" (.positional 0)) rfl
    simp [commentsAsked, Expr.nodes]
  have hon : parts.options.on? = some commentsAsked := parts.on?_withOn
  exact ⟨hbind, hwritten _ _ 1 "score" .item .integer hon hasks ⟨"Comment", rfl, rfl⟩ nofun nofun⟩

/-- `r.score in ^1`. -/
def scoreAmong : Expr := .binary .mem (.field "r" "score") (.interpolate (.positional 1))

/-- `join(query, :inner, [p], r in ^0, on: r.score in ^1)`. -/
def rowsAmong : Invocation :=
  Invocation.withOn {
    qualifier := .atom "inner"
    binding := .list [.var "p"]
    target := .binary .mem (.var "r") (.interpolate (.positional 0)) } [] [] scoreAmong

/-- Of what `^0` stands for nothing is known before binding. -/
def rowsAmongParts : binder.Parts posts rowsAmong where
  qualifier := .inner
  options := ⟨.ofList [("on", scoreAmong)]⟩
  scope := ⟨.ofList [("p", 0)], 1⟩
  vars := .single (some "r")
  target := .interpolate (.positional 0)
  sized := { source := .runtime (.positional 0) }
  joined := ⟨.ofList [("p", 0), ("r", 1)], 2⟩
  on := .compiled ⟨.binary .mem (.field 1 "score") (.param 0),
    [⟨.deferred (.positional 1), .any⟩]⟩
  qualifier_eq := rfl
  options_eq := rfl
  scope_eq := rfl
  target_eq := rfl
  fresh := rfl
  sized_eq := rfl
  arity_ok := rfl
  joined_eq := rfl
  on_eq := rfl
  last_ok := rfl

/-- The score of a comment is an integer, that of a review a text. -/
def rated : Compiler where
  view := fun name =>
    if name = "Comment" then
      some { name := "Comment", source := "comments", fields := .ofList [("score", .integer)] }
    else if name = "Review" then
      some { name := "Review", source := "reviews", fields := .ofList [("score", .string)] }
    else none

/-- `p.score > ^0`. -/
def scoreOver : Expr := .binary .gt (.field "p" "score") (.interpolate (.positional 0))

/-- `join(query, :inner, [p], t in "tags", on: p.score > ^0)`. -/
def tagsAbove : Invocation :=
  Invocation.withOn {
    qualifier := .atom "inner"
    binding := .list [.var "p"]
    target := .binary .mem (.var "t") (.literal (.string "tags")) } [] [] scoreOver

def tagsAboveParts : rated.Parts (.ofSchema "Comment") tagsAbove where
  qualifier := .inner
  options := ⟨.ofList [("on", scoreOver)]⟩
  scope := ⟨.ofList [("p", 0)], 1⟩
  vars := .single (some "t")
  target := .literal (.string "tags")
  sized := { source := .table { table := some "tags" } }
  joined := ⟨.ofList [("p", 0), ("t", 1)], 2⟩
  on := .compiled ⟨.binary .gt (.field 0 "score") (.param 0),
    [⟨.deferred (.positional 0), .type .integer⟩]⟩
  qualifier_eq := rfl
  options_eq := rfl
  scope_eq := rfl
  target_eq := rfl
  fresh := rfl
  sized_eq := rfl
  arity_ok := rfl
  joined_eq := rfl
  on_eq := rfl
  last_ok := rfl

/-- What binding finds to be comments was of no known schema when `r.score in ^1` was compiled, and
a text is let through for an array of integers. And the tags of a comment, absorbed by reviews,
let an integer through for the score of a review, which is a text. -/
theorem operands_unchecked :
    binder.conditions = .standard ∧ rated.conditions = .standard ∧
    (∃ (later : Query) (bq : BoundQuery), later.GrownFrom binder posts rowsAmong 0 0 ∧
      later.bind (.positional [.queryable (.schema "Comment"), .value (.string "x")]) binder =
        .ok bq ∧
      rowsAmongParts.options.on? = some scoreAmong ∧
      scoreAmong.Asks rowsAmongParts.joined 1 (.positional 1) 1 "score" .array ∧
      (bq.context binder.view).Declares 1 "score" .integer ∧
      (Demand.array.type .integer).accepts (.string "x") = false) ∧
    ∃ (later : Query) (bq : BoundQuery), later.GrownFrom rated (.ofSchema "Comment") tagsAbove 0 0 ∧
      later.bind (.positional [.value (.integer 5)]) rated = .ok bq ∧
      tagsAboveParts.options.on? = some scoreOver ∧
      scoreOver.Asks tagsAboveParts.joined 1 (.positional 0) 0 "score" .item ∧
      (bq.context rated.view).Declares 0 "score" .string ∧
      (Demand.item.type .string).accepts (.integer 5) = false := by
  have hrows : (⟨posts.base, [rowsAmongParts.join], .empty⟩ : Query).GrownFrom binder posts
      rowsAmong 0 0 := ⟨.ofTableRef _, (fun _ h => nomatch h), _, 0, rfl, .refl, rfl⟩
  have htags : (⟨{ source := { schema := some "Review" } }, [tagsAboveParts.join], .empty⟩ :
      Query).GrownFrom rated (.ofSchema "Comment") tagsAbove 0 0 :=
    ⟨.ofTableRef _, (fun _ h => nomatch h), _, 0, rfl, .absorbed .refl (.ofTableRef _) rfl, rfl⟩
  have hamong : scoreAmong.Asks rowsAmongParts.joined 1 (.positional 1) 1 "score" .array :=
    .node (Expr.self_mem_nodes _) (.membership "r" "score" (.positional 1)) rfl
  have hover : scoreOver.Asks tagsAboveParts.joined 1 (.positional 0) 0 "score" .item :=
    .node (Expr.self_mem_nodes _) (.right .gt nofun "p" "score" (.positional 0)) rfl
  exact ⟨rfl, rfl, ⟨_, _, hrows, rfl, rfl, hamong, ⟨"Comment", rfl, rfl⟩, rfl⟩,
    _, _, htags, rfl, rfl, hover, ⟨"Review", rfl, rfl⟩, rfl⟩

end Sample

end StagedJoin
