import StagedJoin.Proofs.Bound.Depth
import StagedJoin.Proofs.Bound.Typing
import StagedJoin.Proofs.Compiler.Failures
import StagedJoin.Proofs.Query.Origin

/-!
Failures of a query that is bound. Whatever the arguments are, they are refused in
ordinary ways: the joins of a query stand at the slots that come next, no condition
that is compiled, supplied or found late reaches past the last slot of its join, the
cells of every values list are typed, and queries are not nested deeper than the
outermost one has slots.
-/
namespace StagedJoin

/-! ## Values lists that are supplied -/

namespace ValuesList

theorem orderly_rowsOfValues (index : Nat) (items : List Value) :
    Orderly (rowsOfValues index items) := by
  induction items generalizing index with
  | nil => trivial
  | cons v rest ih =>
    have hrow : Orderly (rowOfValue index v) := by
      unfold rowOfValue
      split <;> trivial
    rw [rowsOfValues]
    exact hrow.bind fun row _ _ => (ih (index + 1)).bind fun rows _ _ => trivial

theorem orderly_rowsOfValue (v : Value) : Orderly (rowsOfValue v) := by
  unfold rowsOfValue
  split
  · exact orderly_rowsOfValues 0 _
  · trivial

theorem orderly_columnsOfEntries (types : Value) (entries : List (String × Value)) :
    Orderly (columnsOfEntries types entries) := by
  induction entries with
  | nil => trivial
  | cons e rest ih =>
    obtain ⟨field, v⟩ := e
    have hrest : ∀ name, Orderly (do
        let type ← columnType field name
        return (field, type) :: (← columnsOfEntries types rest)) := by
      intro name
      refine (orderly_columnType field name).bind fun type _ _ => ?_
      exact ih.bind fun columns _ _ => trivial
    unfold columnsOfEntries
    split
    · exact hrest _
    · exact hrest _
    · trivial

theorem orderly_columnsOfValue (types : Value) : Orderly (columnsOfValue types) := by
  unfold columnsOfValue
  split
  · exact orderly_columnsOfEntries _ _
  · trivial

end ValuesList

theorem OrderedMap.orderly_traverse {α β : Type} {f : String → α → Except Failure β}
    (h : ∀ key value, Orderly (f key value)) (m : OrderedMap α) : Orderly (m.traverse f) := by
  have hlist : ∀ entries, Orderly (traverseList f entries) := by
    intro entries
    induction entries with
    | nil => trivial
    | cons e rest ih =>
      obtain ⟨key, value⟩ := e
      rw [traverseList]
      split
      · rename_i hfail
        exact (h key value).ordinary hfail
      · split
        · rename_i hfail
          exact ih.ordinary hfail
        · trivial
  unfold traverse
  split
  · rename_i hfail
    exact (hlist m.entries).ordinary hfail
  · trivial

theorem Arguments.orderly_require (args : Arguments) (p : Placeholder) :
    Orderly (args.require p) := by
  unfold require
  split <;> trivial

namespace Binder

variable {b : Binder} {slots : BoundSlots} {j : Join} {inner : Query → Except Failure BoundQuery}

/-! ## Parameters and cells -/

theorem orderly_paramValue (ctx : Context) (args : Arguments) (tag : TypeTag)
    (value : Staged Value) : Orderly (paramValue ctx args tag value) := by
  have hplain : Orderly (plainValue args tag value) := by
    unfold plainValue
    split
    · trivial
    · split
      · rename_i hfail
        exact (args.orderly_require _).ordinary hfail
      · trivial
      · trivial
  refine hplain.bind fun v _ _ => ?_
  have hcheck : Orderly (checkType ctx tag v) := by
    unfold checkType
    split
    · split <;> trivial
    · trivial
  exact hcheck.bind fun _ _ _ => trivial

theorem orderly_bindParam (ctx : Context) (args : Arguments) (p : Param) :
    Orderly (bindParam ctx args p) :=
  (orderly_paramValue ctx args p.tag p.value).bind fun _ _ _ => trivial

/-- A cell with a type is bound or its value is refused. -/
theorem orderly_bindCell (ctx : Context) {cell : Param} (h : ∃ t, cell.tag = .type t) :
    Orderly (b.bindCell ctx cell) := by
  obtain ⟨t, ht⟩ := h
  refine (orderly_paramValue ctx b.arguments cell.tag cell.value).bind fun v _ _ => ?_
  rw [ht]
  trivial

/-! ## Sources -/

theorem orderly_runtimeTable (arg : Argument) : Orderly (runtimeTable arg) := by
  unfold runtimeTable
  split
  case h_6 => split <;> trivial
  all_goals trivial

theorem orderly_subqueryOf (arity : Nat) (query : Staged Query) :
    Orderly (b.subqueryOf arity query) := by
  unfold subqueryOf
  split
  · trivial
  · refine (b.arguments.orderly_require _).bind fun arg _ _ => ?_
    split
    · split <;> trivial
    · trivial

theorem orderly_bindPrefix (tablePrefix : Option (Staged String)) :
    Orderly (b.bindPrefix tablePrefix) := by
  unfold bindPrefix
  split
  · trivial
  · trivial
  · refine (b.arguments.orderly_require _).bind fun arg _ _ => ?_
    split <;> trivial

theorem orderly_associationName (field : Staged String) : Orderly (b.associationName field) := by
  unfold associationName
  split
  · trivial
  · refine (b.arguments.orderly_require _).bind fun arg _ _ => ?_
    split <;> trivial

theorem orderly_findAssociation (owner : Nat) (name : String) :
    Orderly (b.findAssociation slots owner name) := by
  unfold findAssociation
  split
  · split <;> trivial
  · trivial

theorem orderly_pendingPart {α : Type} (fault : String → ValuesFault)
    {read : Value → Except Failure α} (h : ∀ v, Orderly (read v)) (part : Staged α) :
    Orderly (b.pendingPart fault read part) := by
  unfold pendingPart
  split
  · trivial
  · refine (b.arguments.orderly_require _).bind fun arg _ _ => ?_
    split
    · exact h _
    · trivial

/-- Every values list that is bound is typed, whenever it has been checked. -/
theorem orderly_valuesList {source : ValuesSource}
    (h : ∀ list, source = .checked list → list.Typed) :
    Orderly (b.valuesList source) ValuesList.Typed := by
  unfold valuesList
  split
  · exact h _ rfl
  · refine (orderly_pendingPart _ ValuesList.orderly_rowsOfValue _).bind fun rows _ _ => ?_
    refine (orderly_pendingPart _ ValuesList.orderly_columnsOfValue _).bind fun columns _ _ => ?_
    split
    · rename_i hcheck
      exact ValuesList.typed_of_check hcheck
    · trivial

/-- A condition that is found late keeps to the slots of its join and those before it. -/
theorem orderly_bindAssociation {slot next : Nat} {a : AssociationSource} (hslot : slot < next)
    (howner : a.owner < next) :
    Orderly (b.bindAssociation slots slot a) fun found =>
      ∀ late ∈ found.lateCondition, ∀ s ∈ late.slots, s < next := by
  unfold bindAssociation
  split
  · intro late hl
    cases hl
  · refine (orderly_associationName _).bind fun name _ _ => ?_
    refine (orderly_findAssociation _ name).bind fun r _ _ => ?_
    intro late hl
    cases hl
    exact r.slots_condition_lt hslot howner

theorem orderly_bindValues {source : ValuesSource}
    (h : ∀ list, source = .checked list → list.Typed) :
    Orderly (b.bindValues slots source) fun found => found.lateCondition = none := by
  unfold bindValues
  refine (orderly_valuesList h).bind fun list _ htyped => ?_
  refine (Orderly.mapM fun cell hcell => orderly_bindCell _ (htyped cell hcell)).bind fun _ _ _ => ?_
  rfl

/-- What is known of a join that has been built, and of the query inside its subquery. -/
structure Safe (b : Binder) (inner : Query → Except Failure BoundQuery) (j : Join) : Prop where
  placed : j.WellPlaced
  values : j.source.ValuesTyped
  subquery : ∀ query tablePrefix sub, j.source = .subquery query tablePrefix →
    b.subqueryOf j.arity query = .ok sub → Orderly (inner sub)

theorem orderly_bindSource (h : b.Safe inner j) :
    Orderly (b.bindSource inner slots j) fun found =>
      ∀ late ∈ found.lateCondition, ∀ s ∈ late.slots, s < j.slot + j.arity := by
  have hnone : ∀ source : BoundSource, ∀ late ∈ (FoundSource.mk source none).lateCondition,
      ∀ s ∈ late.slots, s < j.slot + j.arity := by
    intro source late hl
    cases hl
  have hpos := h.placed.arity_pos
  unfold bindSource
  cases hj : j.source with
  | table ref => exact hnone _
  | runtime p =>
    refine (b.arguments.orderly_require p).bind fun arg _ _ => ?_
    exact (orderly_runtimeTable arg).bind fun ref _ _ => hnone _
  | subquery query tablePrefix =>
    refine (orderly_subqueryOf j.arity query).bind fun sub hsub _ => ?_
    refine (orderly_bindPrefix tablePrefix).bind fun boundPrefix _ _ => ?_
    exact (h.subquery query tablePrefix sub hj hsub).bind fun bound _ _ => hnone _
  | association a =>
    have howner := h.placed.owner_lt a hj
    exact orderly_bindAssociation (by omega) (by omega)
  | values source =>
    have htyped : ∀ list, source = .checked list → list.Typed := by
      rintro list rfl
      exact h.values list hj
    refine (orderly_bindValues htyped).imp fun found _ hlate late hl => ?_
    rw [hlate] at hl
    cases hl

/-! ## Conditions -/

theorem slots_conjoin_lt {first : Option Condition} {c : Condition} {next : Nat}
    (hf : ∀ natural ∈ first, ∀ s ∈ natural.slots, s < next) (hc : ∀ s ∈ c.slots, s < next) :
    ∀ s ∈ (conjoin first c).slots, s < next := by
  cases first with
  | none => exact hc
  | some natural =>
    intro s hs
    exact (Condition.mem_slots_and hs).elim (hf natural rfl s) (hc s)

theorem orderly_suppliedCondition (hb : b.compiler.conditions = .standard) (hpos : 1 ≤ j.arity)
    (p : Placeholder) :
    Orderly (b.suppliedCondition slots j p) fun r => ∀ s ∈ r.1.slots, s < j.slot + j.arity := by
  unfold suppliedCondition
  refine (b.arguments.orderly_require p).bind fun arg _ _ => ?_
  split
  · rename_i d _
    have hdynamic : Orderly (b.dynamicCondition slots j d) fun c =>
        ∀ s ∈ c.slots, s < j.slot + j.arity := by
      unfold dynamicCondition
      rw [hb]
      refine (Scope.orderly_resolve _ _ _).bind fun scope hscope _ => ?_
      obtain ⟨hview, hslots⟩ := Scope.inView_of_resolve hscope
      have hbelow : Context.Below (j.slot + j.arity) ⟨scope, slots.schemas, b.compiler.view⟩ := by
        rw [← hslots]
        exact hview
      exact Condition.orderly_ofExpr hbelow d.expr
    exact hdynamic.bind fun c _ hc => hc
  · exact Condition.slots_ofValues_lt (by omega) _
  · intro s hs
    cases hs
  · intro s hs
    cases hs
  · trivial

theorem orderly_onCondition (hb : b.compiler.conditions = .standard) (hj : j.WellPlaced) :
    Orderly (b.onCondition slots j) fun r => ∀ s ∈ r.1.slots, s < j.slot + j.arity := by
  have hpos := hj.arity_pos
  have hon : ∀ s ∈ j.on.slots, s < j.slot + j.arity := by
    intro s hs
    have hle := hj.on_le s hs
    omega
  unfold onCondition
  cases h : j.on with
  | compiled c =>
    rw [h] at hon
    exact hon
  | deferred p natural =>
    rw [h] at hon
    refine (orderly_suppliedCondition hb hpos p).bind fun (c, args) _ hc => ?_
    have hnatural : ∀ n ∈ natural, ∀ s ∈ n.slots, s < j.slot + j.arity := by
      intro n hn
      cases hn
      exact hon
    exact slots_conjoin_lt hnatural hc

/-- No condition of a join reaches past the last slot of the join. -/
theorem orderly_bindOn (hb : b.compiler.conditions = .standard) (hj : j.WellPlaced)
    {late : Option Condition} (hlate : ∀ c ∈ late, ∀ s ∈ c.slots, s < j.slot + j.arity) :
    Orderly (b.bindOn slots j late) := by
  unfold bindOn
  refine (orderly_onCondition hb hj).bind fun (c, args) _ hc => ?_
  have hslots := slots_conjoin_lt hlate hc
  have hlast : ∀ s ∈ (conjoin late c).maxSlot?, s ≤ j.lastSlot := by
    refine ((conjoin late c).forall_mem_maxSlot? _).mpr fun s hs => ?_
    have hlt := hslots s hs
    rw [Join.lastSlot]
    omega
  refine (orderly_checkLastSlot hlast).bind fun _ _ _ => ?_
  exact (Orderly.mapM fun p _ => orderly_bindParam _ args p).bind fun params _ _ => trivial

/-! ## The other parts of a join -/

theorem orderly_bindAlias : Orderly (b.bindAlias slots j) := by
  unfold bindAlias
  split
  · trivial
  · trivial
  · trivial
  · refine (b.arguments.orderly_require _).bind fun arg _ _ => ?_
    split
    · simp only [ok_bind]
      split <;> trivial
    · simp only [ok_bind]
      split <;> trivial
    · trivial

theorem orderly_bindHints (hints : Option (Staged (List String))) : Orderly (b.bindHints hints) := by
  have htexts : ∀ arg items, Orderly (hintTexts arg items) := by
    intro arg items
    induction items with
    | nil => trivial
    | cons v rest ih =>
      cases v with
      | string text => exact ih.bind fun texts _ _ => trivial
      | _ => trivial
  unfold bindHints
  split
  · trivial
  · trivial
  · refine (b.arguments.orderly_require _).bind fun arg _ _ => ?_
    split
    · trivial
    · exact htexts _ _
    · trivial

theorem orderly_bindExtension (name : String) (value : Staged Value) :
    Orderly (b.bindExtension name value) := by
  unfold bindExtension
  split
  · trivial
  · refine (b.arguments.orderly_require _).bind fun arg _ _ => ?_
    split <;> trivial

/-! ## Joins -/

/-- A join at the slot that comes next is bound or an argument is refused. -/
theorem orderly_bindJoin (hb : b.compiler.conditions = .standard) (hj : b.Safe inner j)
    (hslot : j.slot = slots.schemas.length) : Orderly (b.bindJoin inner slots j) := by
  unfold bindJoin
  rw [if_neg (not_not_intro hslot)]
  refine (orderly_bindSource hj).bind fun found _ hlate => ?_
  refine (orderly_bindOn hb hj.placed hlate).bind fun on _ _ => ?_
  refine orderly_bindAlias.bind fun (aliasName, slots) _ _ => ?_
  refine (orderly_bindPrefix _).bind fun tablePrefix _ _ => ?_
  refine (orderly_bindHints _).bind fun hints _ _ => ?_
  exact (OrderedMap.orderly_traverse orderly_bindExtension _).bind fun _ _ _ => trivial

theorem orderly_bindJoins (hb : b.compiler.conditions = .standard) {js : List Join}
    (hjs : ∀ j ∈ js, b.Safe inner j) (hslots : Join.Contiguous slots.schemas.length js) :
    Orderly (b.bindJoins inner slots js) := by
  induction js generalizing slots with
  | nil => trivial
  | cons j rest ih =>
    obtain ⟨hslot, hrest⟩ := hslots
    have hjoin := orderly_bindJoin hb (hjs j List.mem_cons_self) hslot
    rw [bindJoins]
    split
    · rename_i hfail
      exact hjoin.ordinary hfail
    · rename_i bound t hbound
      have hlength : t.schemas.length = slots.schemas.length + j.arity := by
        obtain ⟨p, aliasName, halias, -⟩ := exists_parts_of_bindJoin hbound
        rw [schemas_of_bindAlias halias, Parts.grown, List.length_append,
          BoundSource.length_slotSchemas]
      rw [← hlength] at hrest
      have hmore := ih (fun k hk => hjs k (List.mem_cons_of_mem _ hk)) hrest
      split
      · rename_i hfail
        exact hmore.ordinary hfail
      · trivial

end Binder

/-! ## Queries -/

/-- The values lists of a reachable query have passed their check. -/
theorem Query.Reachable.valuesTyped {q : Query} (h : q.Reachable) :
    ∀ j ∈ q.joins, j.source.ValuesTyped := by
  intro j hj list hlist
  obtain ⟨c, p, i, offset, -, built, hbuilt, hmove⟩ := h.comesFrom j hj
  obtain ⟨parts, rfl⟩ := Compiler.build_eq_ok_iff.mp hbuilt
  rw [hmove.source_eq, JoinSource.shift_eq_values_iff] at hlist
  exact (JoinSource.orderly_ofExpr _ _).post parts.sized_eq list hlist

/-- With room for all slots of a query, the bound on the depth is never met. -/
theorem Binder.orderly_bindWithin {b : Binder} (hb : b.compiler.conditions = .standard)
    (hargs : b.arguments.Reachable) {depth : Nat} {q : Query} (hq : q.Reachable)
    (hdepth : q.slotCount ≤ depth) : Orderly (b.bindWithin depth q) := by
  have hslots : q.slotCount = 1 + Join.totalArity q.joins := rfl
  induction depth generalizing q with
  | zero => omega
  | succ depth ih =>
    have hsafe : ∀ j ∈ q.joins, b.Safe (b.bindWithin depth) j := by
      intro j hj
      refine ⟨hq.layout.wellPlaced j hj, hq.valuesTyped j hj, ?_⟩
      intro query tablePrefix sub hs hsub
      obtain ⟨hreach, hcount⟩ := subqueryOf_fits hargs hq hj hs hsub
      have hle := Join.arity_le_totalArity hj
      exact ih hreach (by omega) rfl
    have hjoins : Orderly
        (b.bindJoins (b.bindWithin depth) ⟨q.aliases, [q.base.source.schema]⟩ q.joins) :=
      orderly_bindJoins hb hsafe hq.layout.contiguous
    rw [bindWithin]
    split
    · rename_i hfail
      exact hjoins.ordinary hfail
    · trivial

/-- No operation on reachable queries reports an internal error, as long as conditions are compiled
by the standard compiler: no join that is built, no query that is absorbed and none that is
bound. -/
theorem Query.Reachable.no_internal_error {q : Query} (hq : q.Reachable) :
    (∀ (c : Compiler) (i : Invocation) (f : InvocationFailure), c.conditions = .standard →
      c.join q i = .error f → f.diagnostic.code ≠ Diagnostic.internalCode) ∧
    (∀ (other : Query) (f : Failure), other.Reachable → q.absorb other = .error f →
      f.code ≠ Diagnostic.internalCode) ∧
    ∀ (c : Compiler) (args : Arguments) (f : Failure), c.conditions = .standard →
      args.Reachable → q.bind args c = .error f → f.code ≠ Diagnostic.internalCode := by
  refine ⟨?_, ?_, ?_⟩
  · intro c i f hc hf
    have hjoin := Compiler.ordinary_of_join hc hf
    rw [InvocationFailure.code_diagnostic]
    exact hjoin.code_ne
  · intro other f ho hf
    exact ((orderly_absorb q ho.layout).ordinary hf).code_ne
  · intro c args f hc hargs hf
    exact ((Binder.orderly_bindWithin hc hargs hq (Nat.le_refl _)).ordinary hf).code_ne

namespace Sample

/-- `join(query, :left, [p], c in Comment, as: :comments, on: ^0)`. -/
def named : Invocation :=
  { comments with
    options := some (.keyword [("as", .atom "comments"), ("on", .interpolate (.positional 0))]) }

def namedJoin : Join :=
  { commentsJoin 1 with
    on := .deferred (.positional 0) none
    joinAlias := .explicit (.literal "comments") }

def postsWithNamed : Query := ⟨posts.base, [namedJoin], .ofList [("comments", 1)]⟩

theorem reachable_postsWithNamed : postsWithNamed.Reachable :=
  .join compiler named (.ofTableRef _) (fun _ h => nomatch h) rfl

/-- A second join of one name, the absorption of a query that has the name and a missing argument
are all refused, and none of them as an internal error. -/
theorem no_internal_error_named :
    (∃ f, compiler.join postsWithNamed named = .error f ∧
      f.diagnostic.code ≠ Diagnostic.internalCode) ∧
    (∃ f, postsWithNamed.absorb postsWithNamed = .error f ∧ f.code ≠ Diagnostic.internalCode) ∧
    ∃ f, postsWithNamed.bind .none binder = .error f ∧ f.code ≠ Diagnostic.internalCode := by
  obtain ⟨hjoin, habsorb, hbind⟩ := reachable_postsWithNamed.no_internal_error
  have hnone : Arguments.none.Reachable := by
    intro p q hq
    cases hq
  exact ⟨⟨_, rfl, hjoin compiler named _ rfl rfl⟩,
    ⟨_, rfl, habsorb postsWithNamed _ reachable_postsWithNamed rfl⟩,
    ⟨_, rfl, hbind binder .none _ rfl hnone rfl⟩⟩

end Sample

end StagedJoin
