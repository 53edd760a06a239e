import StagedJoin.Proofs.Bound.Parts
import StagedJoin.Proofs.Bound.Natural
import StagedJoin.Proofs.Condition.Conjunction
import StagedJoin.Proofs.Source.Placeholders

/-!
What binding asks of its arguments. It looks at an argument only through a placeholder
of the query or of a query that is supplied, so two lists of arguments that agree on
those bind the query to the same, failures included.
-/
namespace StagedJoin

/-- The arguments agree on the placeholders of a set, and the queries supplied for them have no
placeholder outside it. -/
structure Arguments.Agree (A : Placeholder → Prop) (args args' : Arguments) : Prop where
  get?_eq : ∀ p, A p → args'.get? p = args.get? p
  closed : ∀ p q, A p → args.get? p = some (.queryable (.query q)) → ∀ p' ∈ q.placeholders, A p'

theorem Arguments.agree_nothing (args args' : Arguments) : Agree (fun _ => False) args args' :=
  ⟨fun _ h => h.elim, fun _ _ h => h.elim⟩

namespace Binder

variable {A : Placeholder → Prop} {c : Compiler} {args args' : Arguments}

theorem require_congr (h : args.Agree A args') {p : Placeholder} (hp : A p) :
    args'.require p = args.require p := by
  unfold Arguments.require
  rw [h.get?_eq p hp]

/-! ## Parts of a join -/

theorem plainValue_congr (h : args.Agree A args') (tag : TypeTag) {value : Staged Value}
    (hv : ∀ p ∈ value.placeholders, A p) :
    plainValue args' tag value = plainValue args tag value := by
  cases value with
  | literal v => rfl
  | deferred p => simp only [plainValue, require_congr h (hv p List.mem_cons_self)]

theorem bindParam_congr (h : args.Agree A args') (ctx : Context) {param : Param}
    (hp : ∀ p ∈ param.value.placeholders, A p) :
    bindParam ctx args' param = bindParam ctx args param := by
  simp only [bindParam, paramValue, plainValue_congr h _ hp]

theorem bindCell_congr (h : args.Agree A args') (ctx : Context) {cell : Param}
    (hc : ∀ p ∈ cell.value.placeholders, A p) :
    bindCell ⟨c, args'⟩ ctx cell = bindCell ⟨c, args⟩ ctx cell := by
  simp only [bindCell, paramValue, plainValue_congr h _ hc]

theorem bindPrefix_congr (h : args.Agree A args') {tablePrefix : Option (Staged String)}
    (hp : ∀ p ∈ Staged.placeholders? tablePrefix, A p) :
    bindPrefix ⟨c, args'⟩ tablePrefix = bindPrefix ⟨c, args⟩ tablePrefix := by
  rcases tablePrefix with _ | (s | p)
  · rfl
  · rfl
  · simp only [bindPrefix, require_congr h (hp p List.mem_cons_self)]

theorem bindHints_congr (h : args.Agree A args') {hints : Option (Staged (List String))}
    (hp : ∀ p ∈ Staged.placeholders? hints, A p) :
    bindHints ⟨c, args'⟩ hints = bindHints ⟨c, args⟩ hints := by
  rcases hints with _ | (s | p)
  · rfl
  · rfl
  · simp only [bindHints, require_congr h (hp p List.mem_cons_self)]

theorem bindExtension_congr (h : args.Agree A args') (name : String) {value : Staged Value}
    (hp : ∀ p ∈ value.placeholders, A p) :
    bindExtension ⟨c, args'⟩ name value = bindExtension ⟨c, args⟩ name value := by
  cases value with
  | literal v => rfl
  | deferred p => simp only [bindExtension, require_congr h (hp p List.mem_cons_self)]

theorem associationName_congr (h : args.Agree A args') {field : Staged String}
    (hp : ∀ p ∈ field.placeholders, A p) :
    associationName ⟨c, args'⟩ field = associationName ⟨c, args⟩ field := by
  cases field with
  | literal name => rfl
  | deferred p => simp only [associationName, require_congr h (hp p List.mem_cons_self)]

theorem bindAlias_congr (h : args.Agree A args') {slots : BoundSlots} {j : Join}
    (hp : ∀ p ∈ j.joinAlias.placeholders, A p) :
    bindAlias ⟨c, args'⟩ slots j = bindAlias ⟨c, args⟩ slots j := by
  unfold bindAlias
  rcases hj : j.joinAlias with _ | (name | p) | name
  · rfl
  · rfl
  · rw [hj] at hp
    simp only [require_congr h (hp p List.mem_cons_self)]
  · rfl

/-! ## Sources -/

/-- `inner'` binds every query inside the set as `inner` does. -/
def SameWithin (A : Placeholder → Prop) (inner inner' : Query → Except Failure BoundQuery) : Prop :=
  ∀ q, (∀ p ∈ q.placeholders, A p) → inner' q = inner q

theorem subqueryOf_congr (h : args.Agree A args') (arity : Nat) {query : Staged Query}
    (hp : ∀ p ∈ JoinSource.queryPlaceholders query, A p) :
    subqueryOf ⟨c, args'⟩ arity query = subqueryOf ⟨c, args⟩ arity query := by
  cases query with
  | literal q => rfl
  | deferred p =>
    have hrequire := require_congr h (hp p (List.mem_singleton.mpr rfl))
    simp only [subqueryOf, hrequire]

/-- A query that is given or supplied for a subquery stays within the set. -/
theorem placeholders_of_subqueryOf (h : args.Agree A args') {arity : Nat} {query : Staged Query}
    (hp : ∀ p ∈ JoinSource.queryPlaceholders query, A p) {q : Query}
    (hq : subqueryOf ⟨c, args⟩ arity query = .ok q) : ∀ p ∈ q.placeholders, A p := by
  cases query with
  | literal given =>
    cases hq
    exact hp
  | deferred p =>
    obtain ⟨arg, harg, hq⟩ := bind_eq_ok.mp hq
    split at hq
    · rename_i supplied
      split at hq
      · cases hq
        exact h.closed p q (hp p (List.mem_singleton.mpr rfl)) (Arguments.require_eq_ok_iff.mp harg)
      · cases hq
    · cases hq

theorem valuesList_congr (h : args.Agree A args') {source : ValuesSource}
    (hp : ∀ p ∈ source.placeholders, A p) :
    valuesList ⟨c, args'⟩ source = valuesList ⟨c, args⟩ source := by
  rcases source with list | ⟨rows | p, columns | p'⟩
  · rfl
  · rfl
  · have hcolumns := require_congr h
      (hp p' (List.mem_append_right _ (List.mem_singleton.mpr rfl)))
    simp only [valuesList, pendingPart, hcolumns]
  · simp only [valuesList, pendingPart, require_congr h (hp p List.mem_cons_self)]
  · have hcolumns := require_congr h (hp p' (List.mem_cons_of_mem _ (List.mem_singleton.mpr rfl)))
    simp only [valuesList, pendingPart, require_congr h (hp p List.mem_cons_self), hcolumns]

end Binder

/-! ## Values lists -/

namespace ValuesList

/-- Rows that are supplied have nothing left to supply. -/
theorem placeholders_of_rowOfValue {index : Nat} {v : Value} {row : ValuesRow}
    (h : rowOfValue index v = .ok row) : row.placeholders = [] := by
  unfold rowOfValue at h
  split at h
  · rename_i entries
    cases h
    have hfold : ∀ (pairs : List (String × Staged Value)) (before : ValuesRow),
        (∀ e ∈ before.entries, e.2.placeholders = []) →
        (∀ e ∈ pairs, e.2.placeholders = []) →
        ∀ e ∈ (pairs.foldl (fun m p => OrderedMap.insert m p.1 p.2) before).entries,
          e.2.placeholders = [] := by
      intro pairs
      induction pairs with
      | nil => exact fun before hb _ => hb
      | cons e rest ih =>
        intro before hb hpairs
        refine ih _ ?_ fun e he => hpairs e (List.mem_cons_of_mem _ he)
        exact OrderedMap.forall_entries_insert (P := fun s : Staged Value => s.placeholders = []) hb
          (hpairs e List.mem_cons_self)
    refine List.flatMap_eq_nil_iff.mpr (hfold _ .empty (fun e he => nomatch he) ?_)
    intro e he
    obtain ⟨entry, -, rfl⟩ := List.mem_map.mp he
    rfl
  · cases h

theorem placeholders_of_rowsOfValues {index : Nat} {items : List Value} {rows : List ValuesRow}
    (h : rowsOfValues index items = .ok rows) : rows.flatMap ValuesRow.placeholders = [] := by
  induction items generalizing index rows with
  | nil =>
    cases h
    rfl
  | cons v rest ih =>
    obtain ⟨row, hrow, h⟩ := bind_eq_ok.mp h
    obtain ⟨more, hmore, h⟩ := bind_eq_ok.mp h
    cases h
    rw [List.flatMap_cons, placeholders_of_rowOfValue hrow, ih hmore]
    rfl

end ValuesList

namespace Binder

variable {A : Placeholder → Prop} {c : Compiler} {args args' : Arguments}

/-- The cells of a values list keep to the placeholders of its source. -/
theorem placeholders_of_valuesList {source : ValuesSource} {list : ValuesList}
    (hp : ∀ p ∈ source.placeholders, A p) (h : valuesList ⟨c, args⟩ source = .ok list) :
    ∀ cell ∈ list.cells, ∀ p ∈ cell.value.placeholders, A p := by
  intro cell hc p hcell
  cases source with
  | checked given =>
    cases h
    exact hp p (List.mem_flatMap.mpr ⟨cell, hc, hcell⟩)
  | pending rows columns =>
    obtain ⟨rs, hrows, h⟩ := bind_eq_ok.mp h
    obtain ⟨cs, -, h⟩ := bind_eq_ok.mp h
    split at h
    · rename_i checked hcheck
      cases h
      have hrs := ValuesList.placeholders_of_check hcheck hc hcell
      cases rows with
      | literal given =>
        cases hrows
        exact hp p (List.mem_append_left _ hrs)
      | deferred placeholder =>
        obtain ⟨arg, -, hrows⟩ := bind_eq_ok.mp hrows
        split at hrows
        · unfold ValuesList.rowsOfValue at hrows
          split at hrows
          · rw [ValuesList.placeholders_of_rowsOfValues hrows] at hrs
            cases hrs
          · cases hrows
        · cases hrows
    · cases h

theorem bindValues_congr (h : args.Agree A args') (slots : BoundSlots) {source : ValuesSource}
    (hp : ∀ p ∈ source.placeholders, A p) :
    bindValues ⟨c, args'⟩ slots source = bindValues ⟨c, args⟩ slots source := by
  unfold bindValues
  rw [valuesList_congr h hp]
  cases hlist : valuesList ⟨c, args⟩ source with
  | error failure => rfl
  | ok list =>
    have hcells := placeholders_of_valuesList hp hlist
    have hbind : list.cells.mapM (bindCell ⟨c, args'⟩ (context ⟨c, args'⟩ slots)) =
        list.cells.mapM (bindCell ⟨c, args⟩ (context ⟨c, args⟩ slots)) :=
      mapM_congr fun cell hc => bindCell_congr h _ (hcells cell hc)
    simp only [ok_bind, hbind]

theorem bindAssociation_congr (h : args.Agree A args') (slots : BoundSlots) (slot : Nat)
    {a : AssociationSource} (hp : ∀ p ∈ a.field.placeholders, A p) :
    bindAssociation ⟨c, args'⟩ slots slot a = bindAssociation ⟨c, args⟩ slots slot a := by
  unfold bindAssociation
  rw [associationName_congr h hp]
  rfl

theorem bindSource_congr_arguments (h : args.Agree A args')
    {inner inner' : Query → Except Failure BoundQuery} (hinner : SameWithin A inner inner')
    (slots : BoundSlots) {j : Join} (hp : ∀ p ∈ j.source.placeholders, A p) :
    bindSource ⟨c, args'⟩ inner' slots j = bindSource ⟨c, args⟩ inner slots j := by
  unfold bindSource
  cases hj : j.source with
  | table ref => rfl
  | runtime p =>
    rw [hj] at hp
    simp only [require_congr h (hp p (List.mem_singleton.mpr rfl))]
  | subquery query tablePrefix =>
    rw [hj, JoinSource.placeholders] at hp
    have hquery : ∀ p ∈ JoinSource.queryPlaceholders query, A p :=
      fun p hm => hp p (List.mem_append_left _ hm)
    have hpre := bindPrefix_congr (c := c) h fun p hm => hp p (List.mem_append_right _ hm)
    simp only [subqueryOf_congr h j.arity hquery, hpre]
    cases hq : subqueryOf ⟨c, args⟩ j.arity query with
    | error failure => rfl
    | ok q =>
      have hsame := hinner q (placeholders_of_subqueryOf h hquery hq)
      simp only [ok_bind, hsame]
  | association a =>
    rw [hj] at hp
    exact bindAssociation_congr h slots j.slot hp
  | values source =>
    rw [hj] at hp
    exact bindValues_congr h slots hp

end Binder

/-! ## Conditions -/

theorem Condition.placeholders_and (a b : Condition) :
    (a.and b).placeholders = a.placeholders ++ b.placeholders := by
  rw [placeholders, params_and, List.flatMap_append]
  rfl

/-- The values of a map are there already. -/
theorem Condition.placeholders_ofValues (ctx : Context) (slot : Nat)
    (pairs : List (String × Value)) : (ofValues ctx slot pairs).placeholders = [] := by
  have hvalue : ∀ count name v, ∀ param ∈ (runtimeValue ctx slot count name v).2,
      param.value.placeholders = [] := by
    intro count name v param hp
    unfold runtimeValue at hp
    split at hp
    · cases hp
    · rw [List.mem_singleton.mp hp]
      rfl
  have hfold : ∀ before : Conjunction, (∀ param ∈ before.params, param.value.placeholders = []) →
      ∀ param ∈ (pairs.foldl (fun (c : Conjunction) p =>
        c.addEquation slot p.1 (runtimeValue ctx slot c.params.length p.1 p.2)) before).params,
        param.value.placeholders = [] := by
    induction pairs with
    | nil => exact fun before hb => hb
    | cons pair rest ih =>
      intro before hb
      exact ih _ (List.forall_mem_append.mpr ⟨hb, hvalue _ pair.1 pair.2⟩)
  refine List.flatMap_eq_nil_iff.mpr ?_
  unfold ofValues Conjunction.condition
  split
  · exact hfold {} fun _ hp => nomatch hp
  · exact fun _ hp => nomatch hp

namespace Binder

variable {A : Placeholder → Prop} {c : Compiler} {args args' : Arguments}

/-- Both fail in the same way, or both find one condition, with arguments that agree on its
placeholders and on those of the set. -/
def SameCondition (A : Placeholder → Prop) : Except Failure (Condition × Arguments) →
    Except Failure (Condition × Arguments) → Prop
  | .ok r, .ok r' => r'.1 = r.1 ∧ ∃ B : Placeholder → Prop,
      (∀ p, A p → B p) ∧ r.2.Agree B r'.2 ∧ ∀ p ∈ r.1.placeholders, B p
  | .error failure, .error failure' => failure' = failure
  | _, _ => False

theorem suppliedCondition_congr (h : args.Agree A args') (slots : BoundSlots) (j : Join)
    {p : Placeholder} (hp : A p) :
    SameCondition A (suppliedCondition ⟨c, args⟩ slots j p)
      (suppliedCondition ⟨c, args'⟩ slots j p) := by
  have hliteral : ∀ condition : Condition, condition.placeholders = [] →
      SameCondition A (.ok (condition, args)) (.ok (condition, args')) := by
    intro condition hcondition
    refine ⟨rfl, A, fun _ hA => hA, h, fun p' hp' => ?_⟩
    rw [hcondition] at hp'
    cases hp'
  unfold suppliedCondition
  simp only [require_congr h hp]
  cases args.require p with
  | error failure => rfl
  | ok arg =>
    simp only [ok_bind]
    split
    · -- A dynamic condition has arguments of its own.
      rename_i d
      have hdynamic :
          dynamicCondition ⟨c, args'⟩ slots j d = dynamicCondition ⟨c, args⟩ slots j d :=
        rfl
      rw [hdynamic]
      cases dynamicCondition ⟨c, args⟩ slots j d with
      | error failure => rfl
      | ok condition =>
        exact ⟨rfl, fun _ => True, fun _ _ => trivial, ⟨fun _ _ => rfl, fun _ _ _ _ _ _ => trivial⟩,
          fun _ _ => trivial⟩
    · exact hliteral _ (Condition.placeholders_ofValues _ _ _)
    · exact hliteral _ rfl
    · exact hliteral _ rfl
    · rfl

theorem SameCondition.conjoin {x x' : Except Failure (Condition × Arguments)}
    (h : SameCondition A x x') {first : Option Condition}
    (hf : ∀ p ∈ first.elim [] Condition.placeholders, A p) :
    SameCondition A (x.map fun r => (Binder.conjoin first r.1, r.2))
      (x'.map fun r => (Binder.conjoin first r.1, r.2)) := by
  cases x with
  | error failure => cases x' with
    | error failure' => exact h
    | ok r' => exact h.elim
  | ok r => cases x' with
    | error failure' => exact h.elim
    | ok r' =>
      obtain ⟨hc, B, hAB, hagree, hB⟩ := h
      refine ⟨congrArg (Binder.conjoin first) hc, B, hAB, hagree, ?_⟩
      cases first with
      | none => exact hB
      | some natural =>
        intro p hp
        have hmem : p ∈ (natural.and r.1).placeholders := hp
        rw [Condition.placeholders_and, List.mem_append] at hmem
        exact hmem.elim (fun hn => hAB p (hf p hn)) (hB p)

theorem onCondition_eq (b : Binder) (slots : BoundSlots) (j : Join) :
    b.onCondition slots j = match j.on with
      | .compiled c => .ok (c, b.arguments)
      | .deferred p natural =>
        (b.suppliedCondition slots j p).map fun r => (conjoin natural r.1, r.2) := by
  unfold onCondition
  cases j.on with
  | compiled c => rfl
  | deferred p natural => cases b.suppliedCondition slots j p <;> rfl

theorem onCondition_congr (h : args.Agree A args') (slots : BoundSlots) {j : Join}
    (hp : ∀ p ∈ j.on.placeholders, A p) :
    SameCondition A (onCondition ⟨c, args⟩ slots j) (onCondition ⟨c, args'⟩ slots j) := by
  rw [onCondition_eq, onCondition_eq]
  cases hon : j.on with
  | compiled condition =>
    rw [hon] at hp
    exact ⟨rfl, A, fun _ hA => hA, h, hp⟩
  | deferred p natural =>
    rw [hon] at hp
    have hsupplied := suppliedCondition_congr (c := c) h slots j (hp p List.mem_cons_self)
    exact hsupplied.conjoin fun p' hp' => hp p' (List.mem_cons_of_mem _ hp')

theorem bindOn_congr (h : args.Agree A args') (slots : BoundSlots) {j : Join}
    (hp : ∀ p ∈ j.on.placeholders, A p) {late : Option Condition}
    (hl : ∀ p ∈ late.elim [] Condition.placeholders, A p) :
    bindOn ⟨c, args'⟩ slots j late = bindOn ⟨c, args⟩ slots j late := by
  have hsame := (onCondition_congr (c := c) h slots hp).conjoin hl
  unfold bindOn
  cases hr : onCondition ⟨c, args⟩ slots j with
  | error failure => cases hr' : onCondition ⟨c, args'⟩ slots j with
    | error failure' =>
      rw [hr, hr'] at hsame
      exact congrArg Except.error hsame
    | ok r' =>
      rw [hr, hr'] at hsame
      exact hsame.elim
  | ok r => cases hr' : onCondition ⟨c, args'⟩ slots j with
    | error failure' =>
      rw [hr, hr'] at hsame
      exact hsame.elim
    | ok r' =>
      rw [hr, hr'] at hsame
      obtain ⟨hc, B, -, hagree, hB⟩ := hsame
      have hparams : (conjoin late r.1).params.mapM
            (bindParam (context ⟨c, args'⟩ slots) r'.2) =
          (conjoin late r.1).params.mapM (bindParam (context ⟨c, args⟩ slots) r.2) := by
        refine mapM_congr fun param hparam => bindParam_congr hagree _ fun p hm => ?_
        exact hB p (List.mem_flatMap.mpr ⟨param, hparam, hm⟩)
      dsimp only at hc
      simp only [ok_bind, hc, hparams]
      rfl

/-! ## Joins and queries -/

theorem placeholders_of_lateCondition {b : Binder} {inner : Query → Except Failure BoundQuery}
    {slots : BoundSlots} {j : Join} {found : FoundSource}
    (h : b.bindSource inner slots j = .ok found) :
    found.lateCondition.elim [] Condition.placeholders = [] := by
  cases bindSource_eq_ok_iff.mp h <;> rfl

/-- A join whose placeholders are in the set is bound to the same. -/
theorem bindJoin_congr (h : args.Agree A args')
    {inner inner' : Query → Except Failure BoundQuery} (hinner : SameWithin A inner inner')
    (slots : BoundSlots) {j : Join} (hp : ∀ p ∈ j.placeholders, A p) :
    bindJoin ⟨c, args'⟩ inner' slots j = bindJoin ⟨c, args⟩ inner slots j := by
  obtain ⟨hsource, hon, halias, hpre, hhints, hextensions⟩ := Join.within_of_placeholders hp
  have hentries : j.extensions.traverse (bindExtension ⟨c, args'⟩) =
      j.extensions.traverse (bindExtension ⟨c, args⟩) :=
    OrderedMap.traverse_congr fun e he => bindExtension_congr h e.1 (hextensions e he)
  unfold bindJoin
  rw [bindSource_congr_arguments h hinner slots hsource, bindPrefix_congr h hpre,
    bindHints_congr h hhints]
  simp only [hentries]
  cases hfound : bindSource ⟨c, args⟩ inner slots j with
  | error failure => rfl
  | ok found =>
    have hlate : ∀ p ∈ found.lateCondition.elim [] Condition.placeholders, A p := by
      rw [placeholders_of_lateCondition hfound]
      exact fun _ hm => nomatch hm
    simp only [ok_bind, bindOn_congr h _ hon hlate, bindAlias_congr h halias]

theorem bindJoins_congr (h : args.Agree A args')
    {inner inner' : Query → Except Failure BoundQuery} (hinner : SameWithin A inner inner')
    {slots : BoundSlots} {js : List Join} (hp : ∀ j ∈ js, ∀ p ∈ j.placeholders, A p) :
    bindJoins ⟨c, args'⟩ inner' slots js = bindJoins ⟨c, args⟩ inner slots js := by
  induction js generalizing slots with
  | nil => rfl
  | cons j rest ih =>
    have hrest : ∀ t, bindJoins ⟨c, args'⟩ inner' t rest = bindJoins ⟨c, args⟩ inner t rest :=
      fun t => ih fun k hk => hp k (List.mem_cons_of_mem _ hk)
    rw [bindJoins, bindJoins, bindJoin_congr h hinner slots (hp j List.mem_cons_self)]
    simp only [hrest]

/-- A query is bound to the same, or fails in the same way, with arguments that agree on its
placeholders. -/
theorem bindWithin_congr (h : args.Agree A args') (depth : Nat) :
    SameWithin A (bindWithin ⟨c, args⟩ depth) (bindWithin ⟨c, args'⟩ depth) := by
  induction depth with
  | zero => exact fun _ _ => rfl
  | succ depth ih =>
    intro q hq
    have hjoins : bindJoins ⟨c, args'⟩ (bindWithin ⟨c, args'⟩ depth)
          ⟨q.aliases, [q.base.source.schema]⟩ q.joins =
        bindJoins ⟨c, args⟩ (bindWithin ⟨c, args⟩ depth)
          ⟨q.aliases, [q.base.source.schema]⟩ q.joins :=
      bindJoins_congr h ih fun j hj p hp => hq p (Query.mem_placeholders.mpr ⟨j, hj, hp⟩)
    rw [bindWithin, bindWithin, hjoins]

end Binder
end StagedJoin
