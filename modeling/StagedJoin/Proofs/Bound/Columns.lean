import StagedJoin.Proofs.Bound.Layout
import StagedJoin.Proofs.Compiler.Failures
import StagedJoin.Proofs.Source.Grammar
import StagedJoin.Proofs.Source.Values

/-!
The columns of values lists. Every list that is accepted has rows and as many cells as
rows and columns make up. Rows never have a field twice, and neither have types that
are supplied, since both are maps; a written declaration of types is taken as it stands.
So columns differ from each other wherever no declaration in a join, in a query inside
it or in a query that is supplied has a field twice, and only there.
-/
namespace StagedJoin

/-! ## What is read -/

namespace ValuesList

/-- There are rows, and each of them has a cell in each column. -/
structure Counted (list : ValuesList) : Prop where
  one_le : 1 ≤ list.rowCount
  length_cells : list.cells.length = list.rowCount * list.columns.length

theorem counted_of_check {rows : List ValuesRow} {columns : Columns} {list : ValuesList}
    (h : check rows columns = .ok list) : list.Counted := by
  obtain ⟨hne, -, cells, hcells, rfl⟩ := check_eq_ok_iff.mp h
  exact ⟨List.length_pos_iff.mpr hne, length_of_layOut hcells⟩

theorem fields_of_columnsOfEntries {types : Value} {entries : List (String × Value)}
    {columns : Columns} (h : columnsOfEntries types entries = .ok columns) :
    columns.map Prod.fst = entries.map Prod.fst := by
  induction entries generalizing columns with
  | nil =>
    cases h
    rfl
  | cons e rest ih =>
    obtain ⟨field, v⟩ := e
    have hnamed : ∀ name, (do
        let type ← columnType field name
        return (field, type) :: (← columnsOfEntries types rest)) = .ok columns →
          columns.map Prod.fst = field :: rest.map Prod.fst := by
      intro name h
      obtain ⟨type, -, h⟩ := bind_eq_ok.mp h
      obtain ⟨more, hmore, h⟩ := bind_eq_ok.mp h
      cases h
      rw [List.map_cons, ih hmore]
    unfold columnsOfEntries at h
    split at h
    · exact hnamed _ h
    · exact hnamed _ h
    · cases h

/-- Types that are supplied are a map, which has no field twice. -/
theorem nodup_of_columnsOfValue {types : Value} {columns : Columns}
    (h : columnsOfValue types = .ok columns) : (columns.map Prod.fst).Nodup := by
  unfold columnsOfValue at h
  split at h
  · rename_i entries
    rw [fields_of_columnsOfEntries h]
    exact (OrderedMap.ofList entries).distinct
  · cases h

end ValuesList

/-- The columns of a list that are known before the query is bound. -/
def ValuesSource.columns? : ValuesSource → Option Columns
  | .checked list => some list.columns
  | .pending _ (.literal columns) => some columns
  | .pending _ (.deferred _) => none

namespace Expr

theorem IsPairs.unique {e : Expr} {pairs pairs' : List (String × Expr)} (h : e.IsPairs pairs)
    (h' : e.IsPairs pairs') : pairs = pairs' := by
  cases h <;> cases h' <;> rfl

/-- A written row with a field that occurs twice. -/
def RepeatsField (rows : Expr) : Prop :=
  ∃ items row pairs, rows = .list items ∧ row ∈ items ∧ row.IsPairs pairs ∧
    ¬(pairs.map Prod.fst).Nodup

theorem RepeatsField.not_isRows {e : Expr} (h : e.RepeatsField) (rows : List ValuesRow) :
    ¬e.IsRows rows := by
  obtain ⟨items, item, pairs, rfl, hitem, hpairs, hrepeats⟩ := h
  rintro ⟨items', hitems, hrows⟩
  cases hitems
  obtain ⟨row, -, pairs', hpairs', hrelated⟩ := exists_left_of_forall₂ hrows.flip hitem
  rw [hpairs.unique hpairs', ← hrelated.keys_eq] at hrepeats
  exact hrepeats row.distinct

end Expr

/-- A values list as it has been read: what is checked is counted, and columns that are known are
those that are written. -/
structure ValuesSource.Sound (types : Expr) (source : ValuesSource) : Prop where
  counted : ∀ list, source = .checked list → list.Counted
  isColumns : ∀ columns, source.columns? = some columns → types.IsColumns columns
  /-- Only columns that are interpolated are not known. -/
  known : (∀ p, types ≠ .interpolate p) → ∃ columns, source.columns? = some columns

namespace JoinSource

open StagedJoin.Expr JoinOptions

variable {ctx : SourceContext} {call e rows types : Expr} {sized : SizedSource}
  {source : ValuesSource}

/-- Only a call of `values` stands for a values list. -/
theorem exists_values_of_ofExpr (h : ofExpr ctx e = .ok sized)
    (hs : sized.source = .values source) :
    ∃ rows types, e = .call "values" [rows, types] ∧ ofValues e rows types = .ok sized := by
  unfold ofExpr at h
  split at h
  case h_5 =>
    obtain ⟨-, rfl⟩ := ofQuery_eq_ok_iff.mp h
    cases hs
  case h_6 =>
    cases ofCall_eq_ok_iff.mp h with
    | values h => exact ⟨_, _, rfl, h⟩
    | subquery h =>
      rcases ofSubquery_cases h with ⟨q, p, rfl, rfl⟩ | ⟨placeholder, p, rfl⟩ <;> cases hs
    | subqueryWith h =>
      rcases ofSubquery_cases h with ⟨q, p, rfl, rfl⟩ | ⟨placeholder, p, rfl⟩ <;> cases hs
    | assoc h =>
      obtain ⟨_, _, _, _, _, _, _, _, _, rfl⟩ := ofAssociation_eq_ok_iff.mp h
      cases hs
  all_goals
    cases h
    try cases hs

theorem sound_of_ofValues (h : ofValues call rows types = .ok sized)
    (hs : sized.source = .values source) : source.Sound types := by
  obtain ⟨rs, -, h⟩ := bind_eq_ok.mp h
  obtain ⟨cs, hcolumns, h⟩ := bind_eq_ok.mp h
  rw [stagedColumns_eq_ok_iff] at hcolumns
  have hpending : ValuesSource.Sound types (.pending rs cs) := by
    cases hcolumns with
    | literal hcolumns =>
      refine ⟨fun list hlist => (nomatch hlist), ?_, fun _ => ⟨_, rfl⟩⟩
      intro columns hknown
      cases hknown
      exact hcolumns
    | deferred p =>
      exact ⟨fun list hlist => (nomatch hlist), fun columns hknown => (nomatch hknown),
        fun hwritten => absurd rfl (hwritten p)⟩
  split at h
  · split at h
    · rename_i list hcheck
      cases h
      cases hs
      refine ⟨?_, ?_, fun _ => ⟨_, rfl⟩⟩
      · intro list hlist
        cases hlist
        exact ValuesList.counted_of_check hcheck
      · intro columns hknown
        cases hknown
        rw [(ValuesList.check_eq_ok hcheck).1]
        exact hpending.isColumns _ rfl
    · cases h
  · cases h
    cases hs
    exact hpending

end JoinSource

/-! ## What a join writes -/

namespace Invocation

/-- The join reads a values list. -/
def ReadsValues (i : Invocation) (rows types : Expr) : Prop :=
  ∃ vars, JoinVars.splitTarget i.target = .ok (vars, .call "values" [rows, types])

/-- The types of a values list are written with these fields, in this order. -/
def Declares (i : Invocation) (fields : List String) : Prop :=
  ∃ rows types pairs, i.ReadsValues rows types ∧ types.IsPairs pairs ∧
    pairs.map Prod.fst = fields

/-- What is declared is read off the target. -/
theorem Declares.unique {i : Invocation} {fields fields' : List String} (h : i.Declares fields)
    (h' : i.Declares fields') : fields = fields' := by
  obtain ⟨rows, types, pairs, ⟨vars, htarget⟩, hpairs, rfl⟩ := h
  obtain ⟨rows', types', pairs', ⟨vars', htarget'⟩, hpairs', rfl⟩ := h'
  cases htarget.symm.trans htarget'
  rw [hpairs.unique hpairs']

/-- No field stands twice among written types. -/
def DeclaresApart (i : Invocation) : Prop := ∀ fields, i.Declares fields → fields.Nodup

end Invocation

namespace Compiler

variable {c : Compiler} {q : Query} {i : Invocation} {j : Join} {source : ValuesSource}

/-- The values list of a join that is built is the one that is written for it. -/
theorem exists_sound_of_build (h : c.build q i = .ok j) (hs : j.source = .values source) :
    ∃ rows types, i.ReadsValues rows types ∧ source.Sound types := by
  obtain ⟨parts, rfl⟩ := build_eq_ok_iff.mp h
  obtain ⟨rows, types, htarget, hread⟩ := JoinSource.exists_values_of_ofExpr parts.sized_eq hs
  have hsplit := parts.target_eq
  rw [htarget] at hsplit
  exact ⟨rows, types, ⟨parts.vars, hsplit⟩, JoinSource.sound_of_ofValues hread hs⟩

/-- Columns that are known have the fields that are declared. -/
theorem declares_of_build (h : c.build q i = .ok j) (hs : j.source = .values source)
    {columns : Columns} (hknown : source.columns? = some columns) :
    i.Declares (columns.map Prod.fst) := by
  obtain ⟨rows, types, hreads, hsound⟩ := exists_sound_of_build h hs
  obtain ⟨pairs, hpairs, hrelated⟩ := hsound.isColumns columns hknown
  exact ⟨rows, types, pairs, hreads, hpairs, hrelated.keys_eq.symm⟩

/-- Whatever is declared is taken as it stands. -/
theorem exists_columns_of_build (h : c.build q i = .ok j) {fields : List String}
    (hdeclares : i.Declares fields) : ∃ source columns, j.source = .values source ∧
      source.columns? = some columns ∧ columns.map Prod.fst = fields := by
  obtain ⟨rows, types, pairs, ⟨vars, htarget⟩, hpairs, -⟩ := id hdeclares
  obtain ⟨parts, rfl⟩ := build_eq_ok_iff.mp h
  obtain ⟨-, hsame⟩ := Prod.mk.inj (Except.ok.inj (htarget.symm.trans parts.target_eq))
  have hsized := parts.sized_eq
  rw [← hsame] at hsized
  have hread : JoinSource.ofValues (.call "values" [rows, types]) rows types = .ok parts.sized :=
    hsized
  obtain ⟨source, hsource⟩ := JoinSource.exists_values_of_ofValues hread
  have hvalues : parts.join.source = .values source := congrArg SizedSource.source hsource
  have hwritten : ∀ p, types ≠ .interpolate p := by
    rintro p rfl
    cases hpairs
  obtain ⟨columns, hknown⟩ := (JoinSource.sound_of_ofValues hread hvalues).known hwritten
  exact ⟨source, columns, hvalues, hknown,
    (declares_of_build h hvalues hknown).unique hdeclares⟩

end Compiler

/-! ## Queries -/

namespace Query

variable {P : Invocation → Prop} {q : Query} {j : Join} {source : ValuesSource}

/-- A values list of a query is one that a join has been built with. -/
theorem BuiltWith.exists_build (h : q.BuiltWith P) (hj : j ∈ q.joins)
    (hs : j.source = .values source) :
    ∃ c p i built, P i ∧ Compiler.build c p i = .ok built ∧ built.source = .values source := by
  obtain ⟨c, p, i, offset, -, hi, built, hbuilt, hmove⟩ := h.comesFrom j hj
  rw [hmove.source_eq, JoinSource.shift_eq_values_iff] at hs
  exact ⟨c, p, i, built, hi, hbuilt, hs⟩

theorem Reachable.counted (h : q.Reachable) (hj : j ∈ q.joins) {list : ValuesList}
    (hs : j.source = .values (.checked list)) : list.Counted := by
  obtain ⟨c, p, i, built, -, hbuilt, hsource⟩ := h.builtWith.exists_build hj hs
  obtain ⟨rows, types, -, hsound⟩ := Compiler.exists_sound_of_build hbuilt hsource
  exact hsound.counted list rfl

theorem BuiltWith.nodup_columns (h : q.BuiltWith Invocation.DeclaresApart) (hj : j ∈ q.joins)
    (hs : j.source = .values source) {columns : Columns} (hknown : source.columns? = some columns) :
    (columns.map Prod.fst).Nodup := by
  obtain ⟨c, p, i, built, hi, hbuilt, hsource⟩ := h.exists_build hj hs
  exact hi _ (Compiler.declares_of_build hbuilt hsource hknown)

end Query

/-! ## Bound queries -/

/-- A values list that stands in the query or in one of its subqueries, at any depth. -/
inductive BoundQuery.Holds (bound : BoundQuery) :
    Columns → Nat → List (Value × ColumnType) → Prop
  | intro {inner : BoundQuery} {j : BoundJoin} {columns : Columns} {rowCount : Nat}
      {cells : List (Value × ColumnType)} (hwithin : inner.Within bound) (hj : j ∈ inner.joins)
      (hs : j.source = .values columns rowCount cells) : Holds bound columns rowCount cells

namespace Binder

variable {b : Binder} {P : Invocation → Prop} {q : Query} {bound inner : BoundQuery}

/-- What a bound join reads, at any depth, has been bound from a join of a query that is built as
the outermost one is. -/
theorem exists_bindSource_of_within (hargs : b.arguments.BuiltWith P) (hq : q.BuiltWith P)
    {depth : Nat} (h : b.bindWithin depth q = .ok bound) (hwithin : inner.Within bound)
    {j : BoundJoin} (hj : j ∈ inner.joins) :
    ∃ (origin : Query) (i : Join) (within : Query → Except Failure BoundQuery) (slots : BoundSlots)
      (found : FoundSource), origin.BuiltWith P ∧ i ∈ origin.joins ∧
        b.bindSource within slots i = .ok found ∧ found.source = j.source := by
  induction depth generalizing q bound with
  | zero => cases h
  | succ depth ih =>
    obtain ⟨joins, t, hjoins, rfl⟩ := bindWithin_succ_eq_ok_iff.mp h
    cases hwithin with
    | refl =>
      obtain ⟨k, hk⟩ := List.getElem?_of_mem hj
      obtain ⟨i, before, after, hi, hbind, -⟩ := exists_step_of_bindJoins hjoins hk
      obtain ⟨parts, aliasName, -, rfl⟩ := exists_parts_of_bindJoin hbind
      exact ⟨q, i, _, before, parts.found, hq, List.mem_of_getElem? hi, parts.found_eq, rfl⟩
    | subquery hk hs hmid =>
      obtain ⟨origin, horigin, -, hbind⟩ := exists_origin_of_bindJoins hargs hq hjoins hk hs
      exact ih horigin hbind hmid

/-- A list that has been checked before is taken as it is; any other is checked now, and its columns
are those that are known or have been supplied as a map. -/
theorem valuesList_cases {source : ValuesSource} {list : ValuesList}
    (h : b.valuesList source = .ok list) :
    (source = .checked list ∨ ∃ rows, ValuesList.check rows list.columns = .ok list) ∧
      (source.columns? = some list.columns ∨ (list.columns.map Prod.fst).Nodup) := by
  cases source with
  | checked list' =>
    cases h
    exact ⟨.inl rfl, .inl rfl⟩
  | pending rows columns =>
    obtain ⟨rs, -, h⟩ := bind_eq_ok.mp h
    obtain ⟨cs, hcolumns, h⟩ := bind_eq_ok.mp h
    split at h
    · rename_i list' hcheck
      cases h
      obtain rfl := (ValuesList.check_eq_ok hcheck).1
      refine ⟨.inr ⟨rs, hcheck⟩, ?_⟩
      cases columns with
      | literal cs' =>
        cases hcolumns
        exact .inl rfl
      | deferred p =>
        obtain ⟨arg, -, hread⟩ := bind_eq_ok.mp hcolumns
        split at hread
        · exact .inr (ValuesList.nodup_of_columnsOfValue hread)
        · cases hread
    · cases h

/-- A values list in a bound query has been bound from a list that was accepted. -/
theorem exists_list_of_holds (hargs : b.arguments.BuiltWith P) (hq : q.BuiltWith P) {depth : Nat}
    (h : b.bindWithin depth q = .ok bound) {columns : Columns} {rowCount : Nat}
    {cells : List (Value × ColumnType)} (hheld : bound.Holds columns rowCount cells) :
    ∃ (origin : Query) (i : Join) (source : ValuesSource) (list : ValuesList),
      origin.BuiltWith P ∧ i ∈ origin.joins ∧ i.source = .values source ∧
        b.valuesList source = .ok list ∧ list.columns = columns ∧ list.rowCount = rowCount ∧
        list.cells.length = cells.length := by
  obtain ⟨hwithin, hj, hs⟩ := hheld
  obtain ⟨origin, i, within, slots, found, horigin, hi, hbind, hfound⟩ :=
    exists_bindSource_of_within hargs hq h hwithin hj
  rw [hs] at hfound
  cases bindSource_eq_ok_iff.mp hbind with
  | values hsource hlist hcells =>
    cases hfound
    exact ⟨origin, i, _, _, horigin, hi, hsource, hlist, rfl, rfl,
      (mapM_eq_ok_iff.mp hcells).length_eq⟩
  | _ => cases hfound

end Binder

/-! ## Rows that are refused -/

/-- A failure that a values list is reported with. -/
def Failure.OnValues (f : Failure) : Prop := ∃ fault site, f = .values fault site

theorem Failure.OnValues.code_eq {f : Failure} (h : f.OnValues) : f.code = "JOIN_008" := by
  obtain ⟨fault, site, rfl⟩ := h
  rfl

namespace ValuesList

variable {f : Failure}

theorem onValues_of_rowOfPairs {index : Nat} {before : ValuesRow} {pairs : List (String × Expr)}
    (h : rowOfPairs index before pairs = .error f) : f.OnValues := by
  induction pairs generalizing before with
  | nil => cases h
  | cons pair rest ih =>
    obtain ⟨field, e⟩ := pair
    rw [rowOfPairs] at h
    split at h
    · rename_i hvalue
      cases h
      unfold fieldValue at hvalue
      split at hvalue <;> cases hvalue
      exact ⟨_, _, rfl⟩
    · split at h
      · cases h
        exact ⟨_, _, rfl⟩
      · exact ih h

theorem onValues_of_rowOfExpr {index : Nat} {e : Expr} (h : rowOfExpr index e = .error f) :
    f.OnValues := by
  unfold rowOfExpr at h
  split at h
  · exact onValues_of_rowOfPairs h
  · exact onValues_of_rowOfPairs h
  · cases h
    exact ⟨_, _, rfl⟩

theorem onValues_of_rowsOfItems {index : Nat} {items : List Expr}
    (h : rowsOfItems index items = .error f) : f.OnValues := by
  induction items generalizing index with
  | nil => cases h
  | cons e rest ih =>
    rcases bind_eq_error.mp h with h | ⟨row, -, h⟩
    · exact onValues_of_rowOfExpr h
    · rcases bind_eq_error.mp h with h | ⟨rows, -, h⟩
      · exact ih h
      · cases h

/-- Rows are refused if one of them has a field twice. -/
theorem exists_error_of_repeatsField {rows : Expr} (h : rows.RepeatsField) :
    ∃ f, JoinSource.stagedPart rowsOfExpr rows = .error f ∧ f.OnValues := by
  have hrefused := h.not_isRows
  obtain ⟨items, -, -, rfl, -⟩ := h
  cases hread : rowsOfExpr (.list items) with
  | ok rs => exact absurd (rowsOfExpr_eq_ok_iff.mp hread) (hrefused rs)
  | error f =>
    refine ⟨f, ?_, onValues_of_rowsOfItems hread⟩
    change (do return Staged.literal (← rowsOfExpr (.list items))) = _
    rw [hread, error_bind]

end ValuesList

namespace Compiler

variable {c : Compiler} {q : Query} {i : Invocation} {rows types : Expr}

/-- All that is checked before the source of a join passes its check. -/
structure ReachesSource (c : Compiler) (q : Query) (i : Invocation) : Prop where
  qualifier : ∃ kind, Qualifier.ofExpr c.config.qualifiers i.qualifier = .ok kind
  options : ∃ o, JoinOptions.ofExpr? c.config.optionTable .join i.options = .ok o
  scope : ∃ scope vars source, Scope.ofQuery q i.binding = .ok scope ∧
    JoinVars.splitTarget i.target = .ok (vars, source) ∧ scope.checkFresh vars = .ok ()

/-- A row with a field that occurs twice is refused, and reported as soon as it is read. -/
theorem join_of_repeatsField (hreads : i.ReadsValues rows types) (hrows : rows.RepeatsField) :
    (∀ r, c.join q i ≠ .ok r) ∧
      (c.ReachesSource q i → ∃ f, c.join q i = .error f ∧ f.diagnostic.code = "JOIN_008") := by
  obtain ⟨vars, htarget⟩ := hreads
  obtain ⟨f, hread, hf⟩ := ValuesList.exists_error_of_repeatsField hrows
  have hsource : ∀ ctx, JoinSource.ofExpr ctx (.call "values" [rows, types]) = .error f := by
    intro ctx
    change JoinSource.ofValues _ rows types = _
    rw [JoinSource.ofValues, hread]
    rfl
  constructor
  · intro r hr
    obtain ⟨parts, -⟩ := join_eq_ok_iff.mp hr
    obtain ⟨-, hsame⟩ := Prod.mk.inj (Except.ok.inj (htarget.symm.trans parts.target_eq))
    have hsized := parts.sized_eq
    rw [← hsame, hsource] at hsized
    cases hsized
  · intro hbefore
    obtain ⟨kind, hkind⟩ := hbefore.qualifier
    obtain ⟨o, ho⟩ := hbefore.options
    obtain ⟨scope, vars', source, hscope, hsplit, hfresh⟩ := hbefore.scope
    obtain ⟨rfl, rfl⟩ := Prod.mk.inj (Except.ok.inj (htarget.symm.trans hsplit))
    have hbuild : c.build q i = .error f := by
      simp only [build, hkind, ho, hscope, htarget, hfresh, hsource, ok_bind, error_bind]
    refine ⟨⟨f, i⟩, by rw [join, hbuild], ?_⟩
    rw [InvocationFailure.code_diagnostic]
    exact hf.code_eq

end Compiler

/-- Every values list that is accepted, with the query or when it is bound, has a row and as many
cells as its rows and columns make up. Its columns differ from each other if no declaration that is
written anywhere in the query or its arguments has a field twice: a row with a field twice is
refused, and supplied types have none. The columns of a declaration are just those that are
written. -/
theorem Query.Reachable.values_columns {q : Query} (h : q.Reachable) :
    (∀ j ∈ q.joins, ∀ list, j.source = .values (.checked list) →
      1 ≤ list.rowCount ∧ list.cells.length = list.rowCount * list.columns.length) ∧
    (∀ args c bound, args.Reachable → q.bind args c = .ok bound →
      ∀ columns rowCount cells, bound.Holds columns rowCount cells →
        1 ≤ rowCount ∧ cells.length = rowCount * columns.length) ∧
    (q.BuiltWith Invocation.DeclaresApart →
      (∀ j ∈ q.joins, ∀ source columns, j.source = .values source →
        source.columns? = some columns → (columns.map Prod.fst).Nodup) ∧
      ∀ args c bound, args.BuiltWith Invocation.DeclaresApart → q.bind args c = .ok bound →
        ∀ columns rowCount cells, bound.Holds columns rowCount cells →
          (columns.map Prod.fst).Nodup) ∧
    (∀ (c : Compiler) (i : Invocation) rows types, i.ReadsValues rows types → rows.RepeatsField →
      (∀ r, c.join q i ≠ .ok r) ∧
        (c.ReachesSource q i → ∃ f, c.join q i = .error f ∧ f.diagnostic.code = "JOIN_008")) ∧
    ∀ (c : Compiler) (i : Invocation) (r : Query) fields, c.join q i = .ok r → i.Declares fields →
      ∃ j source columns, r.joins = q.joins ++ [j] ∧ j.source = .values source ∧
        source.columns? = some columns ∧ columns.map Prod.fst = fields := by
  refine ⟨?_, ?_, fun hapart => ⟨?_, ?_⟩, ?_, ?_⟩
  · intro j hj list hs
    have hcounted := h.counted hj hs
    exact ⟨hcounted.one_le, hcounted.length_cells⟩
  · intro args c bound hargs hbound columns rowCount cells hheld
    obtain ⟨origin, i, source, list, horigin, hi, hsource, hlist, rfl, rfl, hlength⟩ :=
      Binder.exists_list_of_holds hargs.builtWith h.builtWith hbound hheld
    have hcounted : list.Counted := by
      rcases (Binder.valuesList_cases hlist).1 with rfl | ⟨rows, hcheck⟩
      · exact horigin.reachable.counted hi hsource
      · exact ValuesList.counted_of_check hcheck
    exact ⟨hcounted.one_le, hlength.symm.trans hcounted.length_cells⟩
  · intro j hj source columns hs hknown
    exact hapart.nodup_columns hj hs hknown
  · intro args c bound hargs hbound columns rowCount cells hheld
    obtain ⟨origin, i, source, list, horigin, hi, hsource, hlist, rfl, -, -⟩ :=
      Binder.exists_list_of_holds hargs hapart hbound hheld
    rcases (Binder.valuesList_cases hlist).2 with hknown | hnodup
    · exact horigin.nodup_columns hi hsource hknown
    · exact hnodup
  · intro c i rows types hreads hrows
    exact Compiler.join_of_repeatsField hreads hrows
  · intro c i r fields hr hdeclares
    obtain ⟨j, hbuilt, hjoins, -⟩ := joins_of_join hr
    obtain ⟨source, columns, hs, hknown, hfields⟩ :=
      Compiler.exists_columns_of_build hbuilt hdeclares
    exact ⟨j, source, columns, hjoins, hs, hknown, hfields⟩

namespace Sample

/-- `join(query, :inner, [p], v in values([[a: 1]], types))`. -/
def onLetters (types : List (String × Expr)) : Invocation where
  qualifier := .atom "inner"
  binding := .list [.var "p"]
  target := .binary .mem (.var "v")
    (.call "values" [.list [.keyword [("a", .literal (.integer 1))]], .keyword types])

def lettersJoin (columns : Columns) (cells : List Param) : Join where
  qualifier := .inner
  source := .values (.checked ⟨columns, 1, cells⟩)
  on := .compiled .truth
  joinAlias := .none
  tablePrefix := none
  hints := none
  extensions := .empty
  slot := 1
  arity := 1
  schemas := [none]

def postsWithLetters (columns : Columns) (cells : List Param) : Query :=
  ⟨posts.base, [lettersJoin columns cells], .empty⟩

theorem join_onLetters {types : List (String × Expr)} {columns : Columns} {cells : List Param}
    (hcolumns : (Expr.keyword types).IsColumns columns)
    (hcheck : ValuesList.check [.ofList [("a", .literal (.integer 1))]] columns =
      .ok ⟨columns, 1, cells⟩) :
    compiler.join posts (onLetters types) = .ok (postsWithLetters columns cells) := by
  have hrows : (Expr.list [.keyword [("a", .literal (.integer 1))]]).IsRows
      [.ofList [("a", .literal (.integer 1))]] :=
    ValuesList.rowsOfExpr_eq_ok_iff.mp rfl
  have hread : ∀ ctx, JoinSource.ofExpr ctx
      (.call "values" [.list [.keyword [("a", .literal (.integer 1))]], .keyword types]) =
        .ok ⟨.values (.checked ⟨columns, 1, cells⟩), some 1⟩ :=
    fun _ => JoinSource.ofValues_of_check hrows hcolumns hcheck
  exact Compiler.Parts.join_eq_ok ⟨.inner, {}, ⟨.ofList [("p", 0)], 1⟩, .single (some "v"), _, _, _,
    .compiled .truth, rfl, rfl, rfl, rfl, rfl, hread _, rfl, rfl, rfl, rfl⟩ rfl

theorem builtWith_onLetters {P : Invocation → Prop} {types : List (String × Expr)} {q : Query}
    (htypes : Expr.pairQueries types = []) (hi : P (onLetters types))
    (hq : compiler.join posts (onLetters types) = .ok q) : q.BuiltWith P := by
  have hqueries : (onLetters types).target.queries = [] := by
    simp [onLetters, Expr.queries, Expr.itemQueries, Expr.pairQueries, htypes]
  refine .join compiler _ (.ofTableRef _) ?_ hi hq
  rw [hqueries]
  exact fun _ h => absurd h List.not_mem_nil

theorem isType_integer : (Expr.atom "integer").IsType .integer :=
  ⟨"integer", .atom "integer", ColumnType.parse_of_plain rfl rfl⟩

def letterCell : Param := ⟨.literal (.integer 1), .type .integer⟩

theorem join_one_letter : compiler.join posts (onLetters [("a", .atom "integer")]) =
    .ok (postsWithLetters [("a", .integer)] [letterCell]) :=
  join_onLetters ⟨_, .keyword _, .cons ⟨rfl, isType_integer⟩ .nil⟩ rfl

theorem declaresApart_one_letter : (onLetters [("a", .atom "integer")]).DeclaresApart := by
  intro fields hfields
  have hdeclares : (onLetters [("a", .atom "integer")]).Declares ["a"] :=
    ⟨_, _, _, ⟨_, rfl⟩, .keyword _, rfl⟩
  rw [hfields.unique hdeclares]
  decide

/-- One row and one column, stored and bound. -/
theorem values_columns_letter :
    (postsWithLetters [("a", .integer)] [letterCell]).BuiltWith Invocation.DeclaresApart ∧
      1 ≤ 1 ∧ [letterCell].length = 1 * 1 ∧
      ∃ bound, (postsWithLetters [("a", .integer)] [letterCell]).bind .none compiler = .ok bound ∧
        ∀ columns rowCount cells, bound.Holds columns rowCount cells →
          (columns.map Prod.fst).Nodup := by
  have hbuilt : (postsWithLetters [("a", .integer)] [letterCell]).BuiltWith
      Invocation.DeclaresApart :=
    builtWith_onLetters rfl declaresApart_one_letter join_one_letter
  obtain ⟨hstored, -, hapart, -⟩ := hbuilt.reachable.values_columns
  obtain ⟨hrows, hcells⟩ := hstored _ List.mem_cons_self _ rfl
  have hnone : Arguments.BuiltWith Invocation.DeclaresApart .none := fun _ _ h => nomatch h
  exact ⟨hbuilt, hrows, hcells, _, rfl, (hapart hbuilt).2 .none compiler _ hnone rfl⟩

/-- Types that are written may have a field twice: the list is accepted with two columns of one
name, and is bound with them. -/
theorem column_twice_accepted :
    ∃ q bound, compiler.join posts (onLetters [("a", .atom "integer"), ("a", .atom "integer")]) =
        .ok q ∧ q.Reachable ∧ q.bind .none compiler = .ok bound ∧
      (∃ j ∈ q.joins, ∃ list, j.source = .values (.checked list) ∧
        ¬(list.columns.map Prod.fst).Nodup) ∧
      ∃ columns rowCount cells, bound.Holds columns rowCount cells ∧
        ¬(columns.map Prod.fst).Nodup := by
  have hjoin : compiler.join posts (onLetters [("a", .atom "integer"), ("a", .atom "integer")]) =
      .ok (postsWithLetters [("a", .integer), ("a", .integer)] [letterCell, letterCell]) :=
    join_onLetters
      ⟨_, .keyword _, .cons ⟨rfl, isType_integer⟩ (.cons ⟨rfl, isType_integer⟩ .nil)⟩ rfl
  have hrepeats : ¬(["a", "a"] : List String).Nodup := by decide
  refine ⟨_, _, hjoin, ?_, rfl, ?_, ?_⟩
  · exact (builtWith_onLetters (P := fun _ => True) rfl trivial hjoin).reachable
  · exact ⟨_, List.mem_cons_self, _, rfl, hrepeats⟩
  · exact ⟨_, _, _, .intro .refl List.mem_cons_self rfl, hrepeats⟩

end Sample

end StagedJoin
