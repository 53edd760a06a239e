import StagedJoin.Proofs.Bound.Operands

/-!
Interpolations in front of `in`. In `^p in x.f` the interpolation takes the type of the field
itself, as it does beside any other operator: where the field is an array, it is to be an array
as well, and an element is refused. Behind `in` it is the other way round, `x.f in ^p` asks for
an array of what the field is.
-/
namespace StagedJoin

namespace Binder

/-- A value that is supplied is bound if the type of its parameter accepts it, and refused else. -/
theorem bindParam_of_value {ctx : Context} {args : Arguments} {p : Placeholder} {tag : TypeTag}
    {t : ColumnType} {v : Value} (hv : args.get? p = some (.value v))
    (ht : ctx.resolve tag = .type t) :
    bindParam ctx args ⟨.deferred p, tag⟩ =
      if t.accepts v then .ok (v, .type t) else .error (.parameterType v.text t.name v.text) := by
  have hplain : plainValue args tag (.deferred p) = .ok v :=
    plainValue_eq_ok_iff.mpr (.inr ⟨p, rfl, hv⟩)
  simp only [bindParam, paramValue, hplain, ok_bind, checkType, ht]
  split <;> rfl

namespace Arrival

variable {b : Binder} {q : Query} {k : Nat} {p : Placeholder} {tag : TypeTag} {t : ColumnType}

/-- The clause has a parameter for the interpolation that is checked against the type: a value that
the type accepts is bound there; any other fails the query, and in just this way if the parameters
before it are bound. -/
def Checks (a : b.Arrival q k) (p : Placeholder) (t : ColumnType) : Prop :=
  ∃ before tag after, a.condition.params = before ++ ⟨.deferred p, tag⟩ :: after ∧
    ∀ v, a.args.get? p = some (.value v) →
      (t.accepts v → bindParam a.context a.args ⟨.deferred p, tag⟩ = .ok (v, .type t)) ∧
      (¬ t.accepts v → (∃ f, b.bind q = .error f) ∧
        ∀ bound, before.mapM (bindParam a.context a.args) = .ok bound →
          b.bind q = .error (.parameterType v.text t.name v.text))

theorem checks_of_mem (a : b.Arrival q k) (hparam : ⟨.deferred p, tag⟩ ∈ a.condition.params)
    (ht : a.context.resolve tag = .type t) : a.Checks p t := by
  obtain ⟨before, after, hsplit⟩ := List.append_of_mem hparam
  refine ⟨before, tag, after, hsplit, fun v hv => ⟨fun haccepts => ?_, fun hrefuses => ?_⟩⟩
  · rw [bindParam_of_value hv ht, if_pos haccepts]
  · have hfail : bindParam a.context a.args ⟨.deferred p, tag⟩ =
        .error (.parameterType v.text t.name v.text) := by
      rw [bindParam_of_value hv ht, if_neg hrefuses]
    exact ⟨a.exists_bind_eq_error hparam hfail,
      fun bound hbefore => a.bind_eq_error_of_param hsplit hbefore hfail⟩

end Arrival

end Binder

/-- Wherever binding arrives at a clause with `^p in x.f`, written or dynamic, it checks the value
of `^p` against the type of the field, whatever that type is: an array where the field is an
array. -/
theorem Query.GrownFrom.membership_left_checked {b : Binder} {c : Compiler} {q later : Query}
    {i : Invocation} {k offset : Nat} (h : later.GrownFrom c q i k offset)
    (hc : c.conditions = .standard) (hb : b.compiler.conditions = .standard)
    (hview : b.compiler.view = c.view) (p : c.Parts q i) (a : b.Arrival later k) :
    (∀ e x f ph slot t, p.options.on? = some e →
      .binary .mem (.interpolate ph) (.field x f) ∈ e.nodes → p.joined.slot? x = some slot →
      (slot = 0 → KeepsBase q later) → a.context.Declares (shiftSlot offset slot) f t →
        a.args = b.arguments ∧ a.Checks ph t) ∧
    (∀ given d, p.options.on? = some (.interpolate given) →
      b.arguments.get? given = some (.dynamic d) →
        a.args = d.arguments ∧
        ∃ scope, Scope.resolve (a.join.slot + a.join.arity) a.slots.aliases (.list d.binding) =
            .ok scope ∧
          ∀ x f ph slot t, .binary .mem (.interpolate ph) (.field x f) ∈ d.expr.nodes →
            scope.slot? x = some slot → a.context.Declares slot f t → a.Checks ph t) ∧
    ∀ value expected site : String,
      (Failure.parameterType value expected site).code = "JOIN_013" := by
  refine ⟨?_, ?_, fun _ _ _ => rfl⟩
  · intro e x f ph slot t hon hn hslot hbase hdeclares
    obtain ⟨written, hwritten⟩ := exists_written p
    have hbeside : (Expr.binary .mem (.interpolate ph) (.field x f)).Beside p.context ph
        (Demand.item.tag (p.context.tag slot f)) := by
      rw [← Expr.operandTag_field hslot]
      exact .left .mem ph (.field x f)
    have hparam : written.HasParam ph (Demand.item.tag (p.context.tag slot f)) := by
      rw [hc, hon] at hwritten
      exact OnClause.hasParam_of_node hwritten hn hbeside
    obtain ⟨tag, hmem, hargs, hresolve⟩ :=
      h.exists_param p a hview hwritten hparam (p.context_below _ _ hslot) hbase nofun hdeclares
    exact ⟨hargs, a.checks_of_mem hmem hresolve⟩
  · intro given d hon harg
    obtain ⟨natural, hdeferred⟩ := h.exists_deferred p a hon
    obtain ⟨scope, hscope, hargs, hparams⟩ := a.exists_dynamic hdeferred harg hb
    refine ⟨hargs, scope, hscope, fun x f ph slot t hn hslot hdeclares => ?_⟩
    let ctx : Context := ⟨scope, a.context.schemas, b.compiler.view⟩
    have hbeside : (Expr.binary .mem (.interpolate ph) (.field x f)).Beside ctx ph
        (ctx.operandTag (.field x f)) := .left .mem ph (.field x f)
    rw [Expr.operandTag_field hslot] at hbeside
    exact a.checks_of_mem (hparams _ hn _ _ hbeside) (hdeclares.resolve_demand .item)

namespace Sample

/-- A post has tags, which are texts. -/
def tagged : Compiler where
  view := fun name =>
    if name = "Post" then
      some { name := "Post", source := "posts", fields := .ofList [("tags", .array .string)] }
    else none

/-- `^0 in p.tags`. -/
def tagAmong : Expr := .binary .mem (.interpolate (.positional 0)) (.field "p" "tags")

/-- `join(query, :inner, [p], l in "labels", on: ^0 in p.tags)`. -/
def labelsOn : Invocation :=
  Invocation.withOn {
    qualifier := .atom "inner"
    binding := .list [.var "p"]
    target := .binary .mem (.var "l") (.literal (.string "labels")) } [] [] tagAmong

def labelsParts : tagged.Parts (.ofSchema "Post") labelsOn where
  qualifier := .inner
  options := ⟨.ofList [("on", tagAmong)]⟩
  scope := ⟨.ofList [("p", 0)], 1⟩
  vars := .single (some "l")
  target := .literal (.string "labels")
  sized := { source := .table { table := some "labels" } }
  joined := ⟨.ofList [("p", 0), ("l", 1)], 2⟩
  on := .compiled ⟨.binary .mem (.param 0) (.field 0 "tags"),
    [⟨.deferred (.positional 0), .type (.array .string)⟩]⟩
  qualifier_eq := rfl
  options_eq := rfl
  scope_eq := rfl
  target_eq := rfl
  fresh := rfl
  sized_eq := rfl
  arity_ok := rfl
  joined_eq := rfl
  on_eq := rfl
  last_ok := rfl

def labelledPosts : Query := ⟨{ source := { schema := some "Post" } }, [labelsParts.join], .empty⟩

theorem grownFrom_labelledPosts : labelledPosts.GrownFrom tagged (.ofSchema "Post") labelsOn 0 0 :=
  ⟨.ofTableRef _, (fun _ h => nomatch h), labelledPosts, 0, rfl, .refl, rfl⟩

/-- Binding arrives at the clause of the labels, whatever the arguments are. -/
def labelsArrival (args : Arguments) : Binder.Arrival ⟨tagged, args⟩ labelledPosts 0 where
  join := labelsParts.join
  before := []
  slots := ⟨.empty, [some "Post"]⟩
  found := { source := .table { table := some "labels" } }
  given := ⟨.binary .mem (.param 0) (.field 0 "tags"),
    [⟨.deferred (.positional 0), .type (.array .string)⟩]⟩
  args := args
  join_eq := rfl
  before_eq := rfl
  slot_eq := rfl
  found_eq := rfl
  given_eq := rfl
  last_le := by decide

/-- A text in the place of the tags fails the query, and a list of texts is taken there. -/
theorem membership_left_checked_tags :
    (∃ f, labelledPosts.bind (.positional [.value (.string "x")]) tagged = .error f) ∧
      ∃ (a : Binder.Arrival ⟨tagged, .positional [.value (.list [.string "x"])]⟩ labelledPosts 0)
        (tag : TypeTag), Binder.bindParam a.context a.args ⟨.deferred (.positional 0), tag⟩ =
          .ok (.list [.string "x"], .type (.array .string)) := by
  have hchecks : ∀ v, (labelsArrival (.positional [.value v])).Checks (.positional 0)
      (.array .string) := by
    intro v
    obtain ⟨hwritten, -, -⟩ := grownFrom_labelledPosts.membership_left_checked rfl rfl rfl
      labelsParts (labelsArrival (.positional [.value v]))
    exact (hwritten tagAmong "p" "tags" (.positional 0) 0 (.array .string) rfl
      (Expr.self_mem_nodes _) rfl (fun _ => .inr rfl) ⟨"Post", rfl, rfl⟩).2
  obtain ⟨_, _, _, -, htext⟩ := hchecks (.string "x")
  obtain ⟨_, tag, _, -, hlist⟩ := hchecks (.list [.string "x"])
  exact ⟨((htext _ rfl).2 (by decide)).1,
    labelsArrival _, tag, (hlist _ rfl).1 (by decide)⟩

/-- A tag is a text, but a text is refused where it is asked whether it is among the tags, and a
list of texts is taken. -/
theorem membership_left_refuses_element :
    tagged.conditions = .standard ∧
      labelledPosts.GrownFrom tagged (.ofSchema "Post") labelsOn 0 0 ∧
      labelsParts.options.on? = some tagAmong ∧ tagAmong ∈ tagAmong.nodes ∧
      tagged.view.fieldType? "Post" "tags" = some (.array .string) ∧
      ColumnType.string.accepts (.string "x") = true ∧
      labelledPosts.bind (.positional [.value (.string "x")]) tagged =
        .error (.parameterType "\"x\"" "array<string>" "\"x\"") ∧
      ∃ bq, labelledPosts.bind (.positional [.value (.list [.string "x"])]) tagged = .ok bq :=
  ⟨rfl, grownFrom_labelledPosts, rfl, Expr.self_mem_nodes _, rfl, rfl, rfl, _, rfl⟩

end Sample

end StagedJoin
