import StagedJoin.Proofs.Bound.Appended
import StagedJoin.Proofs.Bound.Typing
import StagedJoin.Proofs.Source.Values

/-!
Values lists by their stagings. Rows and types that are written in a join are read and
checked when it is built, those that are supplied when it is bound; the same table comes
to the same join, or to the same report, in either way.
-/
namespace StagedJoin

/-- `values(rows, types)`. -/
def Expr.values (rows types : Expr) : Expr := .call "values" [rows, types]

/-- `join(query, qualifier, binding, vars in values(rows, types))`; the variables may be missing. -/
def Invocation.onValues (qualifier binding : Expr) (vars? : Option Expr) (rows types : Expr) :
    Invocation where
  qualifier := qualifier
  binding := binding
  target := vars?.elim (.values rows types) fun vars => .binary .mem vars (.values rows types)

/-- The qualifier is a supported one, the binding list resolves, and the variables, if there are
any, are one for the one slot of a values list and have no name that is taken. -/
structure Invocation.ValidOnValues (c : Compiler) (q : Query) (qualifier binding : Expr)
    (vars? : Option Expr) (kind : Qualifier) : Prop where
  qualifier_eq : Qualifier.ofExpr c.config.qualifiers qualifier = .ok kind
  vars_ok : ∃ scope vars, Scope.ofQuery q binding = .ok scope ∧
    vars?.elim (.ok .absent) JoinVars.ofExpr = .ok vars ∧
    (∀ given, vars.arity? = some given → given = 1) ∧ scope.checkFresh vars = .ok ()

/-- The join that a values list makes. -/
def ValuesSource.join (kind : Qualifier) (slot : Nat) (source : ValuesSource) : Join where
  qualifier := kind
  source := .values source
  on := .compiled .truth
  joinAlias := .none
  tablePrefix := none
  hints := none
  extensions := .empty
  slot := slot
  arity := 1
  schemas := [none]

namespace Compiler

variable {c : Compiler} {q : Query} {qualifier binding rows types : Expr} {vars? : Option Expr}
  {kind : Qualifier}

theorem splitTarget_onValues (qualifier binding rows types : Expr) {vars : JoinVars}
    (h : vars?.elim (.ok .absent) JoinVars.ofExpr = .ok vars) :
    JoinVars.splitTarget (Invocation.onValues qualifier binding vars? rows types).target =
      .ok (vars, .values rows types) := by
  cases vars? with
  | none =>
    cases h
    rfl
  | some e =>
    have he : JoinVars.ofExpr e = .ok vars := h
    simp only [Invocation.onValues, Option.elim, JoinVars.splitTarget, he]

theorem ofExpr_values (ctx : SourceContext) :
    JoinSource.ofExpr ctx (.values rows types) =
      JoinSource.ofValues (.values rows types) rows types := by
  rfl

/-- A list that cannot be read fails the join. -/
theorem build_onValues_of_error (h : Invocation.ValidOnValues c q qualifier binding vars? kind)
    {f : Failure} (hf : JoinSource.ofValues (.values rows types) rows types = .error f) :
    c.build q (.onValues qualifier binding vars? rows types) = .error f := by
  obtain ⟨scope, vars, hscope, hvars, harity, hfresh⟩ := h.vars_ok
  have htarget := splitTarget_onValues qualifier binding rows types hvars
  have hqualifier := h.qualifier_eq
  unfold build
  simp only [htarget]
  simp only [Invocation.onValues, hqualifier, hscope, JoinOptions.ofExpr?, ok_bind, hfresh,
    ofExpr_values, hf, error_bind]

theorem build_onValues_of_ok (h : Invocation.ValidOnValues c q qualifier binding vars? kind)
    {source : ValuesSource}
    (hs : JoinSource.ofValues (.values rows types) rows types = .ok { source := .values source }) :
    c.build q (.onValues qualifier binding vars? rows types) =
      .ok (source.join kind q.slotCount) := by
  obtain ⟨scope, vars, hscope, hvars, harity, hfresh⟩ := h.vars_ok
  have htarget := splitTarget_onValues qualifier binding rows types hvars
  have hqualifier := h.qualifier_eq
  have hcheck : ∀ site, vars.checkArity 1 site = .ok () := by
    intro site
    unfold JoinVars.checkArity
    split
    · rename_i given hgiven
      rw [if_pos (harity given hgiven)]
    · rfl
  have hextend : scope.extend vars 1 =
      .ok ⟨Scope.nameSlots scope.names scope.slots vars.slots, scope.slots + 1⟩ := by
    simp only [Scope.extend, hfresh, ok_bind]
    rfl
  have hone : ((some 1 : Option Nat) <|> vars.arity?).getD 1 = 1 := rfl
  unfold build
  simp only [htarget]
  simp only [Invocation.onValues, hqualifier, hscope, JoinOptions.ofExpr?, ok_bind, hfresh,
    ofExpr_values, hs, hone, hcheck, hextend]
  rfl

end Compiler

/-! ## Binding -/

/-- The bound join of a values list. -/
def ValuesList.boundJoin (kind : Qualifier) (slot : Nat) (list : ValuesList)
    (cells : List (Value × ColumnType)) : BoundJoin where
  qualifier := kind
  source := .values list.columns list.rowCount cells
  on := ⟨.truth, []⟩
  aliasName := none
  tablePrefix := none
  hints := []
  extensions := .empty
  slot := slot
  arity := 1

namespace Binder

variable {b : Binder} {inner : Query → Except Failure BoundQuery} {slots : BoundSlots}
  {kind : Qualifier} {source : ValuesSource}

theorem bindJoin_values_of_error {f : Failure} (h : b.valuesList source = .error f) :
    b.bindJoin inner slots (source.join kind slots.schemas.length) = .error f := by
  unfold bindJoin
  simp only [ValuesSource.join, ne_eq, not_true_eq_false, ↓reduceIte, bindSource, bindValues, h,
    error_bind]

/-- A values list is bound as its cells are. -/
theorem bindJoin_values_of_ok {list : ValuesList} (h : b.valuesList source = .ok list) :
    b.bindJoin inner slots (source.join kind slots.schemas.length) =
      (list.cells.mapM (b.bindCell (b.context slots))).map fun cells =>
        (list.boundJoin kind slots.schemas.length cells,
          { slots with schemas := slots.schemas ++ [none] }) := by
  unfold bindJoin
  simp only [ValuesSource.join, ne_eq, not_true_eq_false, ↓reduceIte, bindSource, bindValues, h,
    ok_bind]
  cases list.cells.mapM (b.bindCell (b.context slots)) <;> rfl

/-- A cell with a value that is there already is taken if its type accepts it. -/
theorem bindCell_literal (ctx : Context) (v : Value) (type : ColumnType) :
    b.bindCell ctx ⟨.literal v, .type type⟩ =
      if type.accepts v then .ok (v, type)
      else .error (.parameterType v.text type.name v.text) := by
  unfold bindCell
  simp only [paramValue, plainValue, checkType, Context.resolve, ok_bind]
  by_cases h : type.accepts v = true
  · simp only [h, ↓reduceIte]
    rfl
  · simp only [h]
    rfl

/-- Cells that are there already stay as they are if their types accept them. -/
theorem mapM_bindCell_eq_ok_iff {ctx : Context} {cells bound : List (Value × ColumnType)} :
    (cells.map Param.ofCell).mapM (b.bindCell ctx) = .ok bound ↔
      (∀ cell ∈ cells, cell.2.accepts cell.1 = true) ∧ cells = bound := by
  have hcell : ∀ cell out, b.bindCell ctx (Param.ofCell cell) = .ok out ↔
      cell.2.accepts cell.1 = true ∧ cell = out := by
    intro cell out
    rw [Param.ofCell, bindCell_literal]
    split <;> simp_all
  simp only [mapM_eq_ok_iff, List.forall₂_map_left_iff, hcell, List.forall₂_and_left,
    List.forall₂_eq_eq_eq]

end Binder

namespace PlainTable

variable {t : PlainTable} {args : Arguments} {rows types : Expr}

/-- The rows as a join has them: written, or left to an argument. -/
inductive RowsGiven (t : PlainTable) (args : Arguments) : Expr → Prop
  | written {items : List Expr} (h : List.Forall₂ RowWritten t.rows items) :
      RowsGiven t args (.list items)
  | supplied {p : Placeholder} (h : args.get? p = some (.value t.rowsValue)) :
      RowsGiven t args (.interpolate p)

inductive TypesGiven (t : PlainTable) (args : Arguments) : Expr → Prop
  | written {e : Expr} (h : TypesWritten t.types e) : TypesGiven t args e
  | supplied {p : Placeholder} (h : args.get? p = some (.value t.typesValue)) :
      TypesGiven t args (.interpolate p)

/-- The list of a table, or why it has none; the check reports to a given place. -/
def read (t : PlainTable) (site : String) : Except Failure ValuesList := do
  let columns ← t.columns
  (t.list columns).mapError fun fault => .values fault site

theorem stagedPart_rows {items : List Expr} (h : List.Forall₂ RowWritten t.rows items) :
    JoinSource.stagedPart ValuesList.rowsOfExpr (.list items) =
      .ok (.literal (t.rows.map row)) := by
  have hread : ValuesList.rowsOfExpr (.list items) = .ok (t.rows.map row) := rowsOfItems_eq h 0
  exact congrArg (Except.map Staged.literal) hread

theorem stagedPart_types {e : Expr} (h : TypesWritten t.types e) :
    JoinSource.stagedPart ValuesList.columnsOfExpr e = t.columns.map .literal := by
  rw [← h.columnsOfExpr_eq]
  cases h <;> rfl

theorem pendingPart_rows {b : Binder} {p : Placeholder}
    (h : b.arguments.get? p = some (.value t.rowsValue)) :
    b.pendingPart (.notARow 0) ValuesList.rowsOfValue (.deferred p) = .ok (t.rows.map row) := by
  have harg : b.arguments.require p = .ok (.value t.rowsValue) :=
    Arguments.require_eq_ok_iff.mpr h
  simp only [Binder.pendingPart, harg, ok_bind, rowsOfValue_eq]

theorem pendingPart_types {b : Binder} {p : Placeholder}
    (h : b.arguments.get? p = some (.value t.typesValue)) :
    b.pendingPart .malformedTypes ValuesList.columnsOfValue (.deferred p) = t.columns := by
  have harg : b.arguments.require p = .ok (.value t.typesValue) :=
    Arguments.require_eq_ok_iff.mpr h
  simp only [Binder.pendingPart, harg, ok_bind, columnsOfValue_eq]

/-- A part that is left for later is read with the arguments; the list is then checked. -/
theorem valuesList_pending {b : Binder} {rows : Staged (List ValuesRow)} {columns : Staged Columns}
    (hr : b.pendingPart (.notARow 0) ValuesList.rowsOfValue rows = .ok (t.rows.map row))
    (hc : b.pendingPart .malformedTypes ValuesList.columnsOfValue columns = t.columns) :
    b.valuesList (.pending rows columns) = t.read "values(rows, types)" := by
  simp only [Binder.valuesList, hr, hc, ok_bind, read]
  cases t.columns with
  | error f => rfl
  | ok cs =>
    simp only [ok_bind, list]
    cases ValuesList.check (t.rows.map row) cs <;> rfl

/-- However rows and types are given, the list of the table comes out, in the join or in the
binding. -/
theorem exists_read (b : Binder) (hr : t.RowsGiven b.arguments rows)
    (ht : t.TypesGiven b.arguments types) (call : Expr) : ∃ site,
      (∃ f, JoinSource.ofValues call rows types = .error f ∧ t.read site = .error f) ∨
      ∃ source, JoinSource.ofValues call rows types = .ok { source := .values source } ∧
        b.valuesList source = t.read site := by
  unfold JoinSource.ofValues
  cases hr with
  | written hrows =>
    rw [stagedPart_rows hrows, ok_bind]
    cases ht with
    | written htypes =>
      -- Both are there, so the list is checked in the join.
      rw [stagedPart_types htypes]
      refine ⟨call.text, ?_⟩
      unfold read
      cases t.columns with
      | error f => exact .inl ⟨f, rfl, rfl⟩
      | ok cs =>
        simp only [Except.map, ok_bind, list]
        cases ValuesList.check (t.rows.map row) cs with
        | error fault => exact .inl ⟨.values fault call.text, rfl, rfl⟩
        | ok checked => exact .inr ⟨.checked checked, rfl, rfl⟩
    | supplied hp =>
      exact ⟨_, .inr ⟨_, rfl, valuesList_pending rfl (pendingPart_types hp)⟩⟩
  | supplied hrows =>
    cases ht with
    | written htypes =>
      refine ⟨"values(rows, types)", ?_⟩
      rw [stagedPart_types htypes]
      cases hcolumns : t.columns with
      | error f =>
        have hread : t.read "values(rows, types)" = .error f := by
          rw [read, hcolumns]
          rfl
        exact .inl ⟨f, rfl, hread⟩
      | ok cs =>
        exact .inr ⟨_, rfl, valuesList_pending (pendingPart_rows hrows) hcolumns.symm⟩
    | supplied hp =>
      exact ⟨_, .inr ⟨_, rfl, valuesList_pending (pendingPart_rows hrows) (pendingPart_types hp)⟩⟩

theorem read_eq_error {site : String} {f : Failure} (h : t.read site = .error f) :
    ∃ fault, t.Faulty fault ∧ ∃ site', f = .values fault site' := by
  unfold read at h
  cases hcolumns : t.columns with
  | error f' =>
    rw [hcolumns] at h
    cases h
    obtain ⟨fault, site', rfl, hfault⟩ := columns_eq_error hcolumns
    exact ⟨fault, hfault, site', rfl⟩
  | ok cs =>
    rw [hcolumns, ok_bind] at h
    cases hlist : t.list cs with
    | ok checked =>
      rw [hlist] at h
      cases h
    | error fault =>
      rw [hlist] at h
      cases h
      exact ⟨fault, list_eq_error (columns_eq_ok_iff.mp hcolumns) hlist, site, rfl⟩

/-- Where the check is made changes the place that it reports to and nothing else. -/
theorem read_eq_error_at {site : String} {f : Failure} (h : t.read site = .error f)
    (site' : String) :
    ∃ f', t.read site' = .error f' ∧ f'.code = f.code ∧
      f'.diagnostic.message = f.diagnostic.message := by
  unfold read at h ⊢
  cases hcolumns : t.columns with
  | error f' =>
    rw [hcolumns] at h
    cases h
    exact ⟨f, rfl, rfl, rfl⟩
  | ok cs =>
    rw [hcolumns, ok_bind] at h
    rw [ok_bind]
    cases hlist : t.list cs with
    | ok checked =>
      rw [hlist] at h
      cases h
    | error fault =>
      rw [hlist] at h
      cases h
      exact ⟨_, rfl, rfl, rfl⟩

theorem read_eq_ok_iff {site : String} {checked : ValuesList} :
    t.read site = .ok checked ↔ ∃ cs, t.Declares cs ∧ t.list cs = .ok checked := by
  simp only [read, bind_eq_ok, mapError_eq_ok, columns_eq_ok_iff]

end PlainTable

namespace Query

variable {q : Query} {bq : BoundQuery} {args : Arguments} {c binder : Compiler}
  {qualifier binding rows types : Expr} {vars? : Option Expr} {kind : Qualifier} {t : PlainTable}

/-- A list that cannot be read fails both steps together, whichever of them reads it. -/
theorem joinAndBind_onValues_of_error (hq : q.bind args binder = .ok bq)
    (hv : Invocation.ValidOnValues c q qualifier binding vars? kind)
    (hr : t.RowsGiven args rows) (ht : t.TypesGiven args types) {site : String} {f : Failure}
    (h : t.read site = .error f) :
    ∃ f', q.joinAndBind (.onValues qualifier binding vars? rows types) args c binder = .error f' ∧
      f'.code = f.code ∧ f'.diagnostic.message = f.diagnostic.message := by
  obtain ⟨site', hread⟩ := PlainTable.exists_read ⟨binder, args⟩ hr ht (.values rows types)
  obtain ⟨f', hf', hcode, hmessage⟩ := PlainTable.read_eq_error_at h site'
  refine ⟨f', ?_, hcode, hmessage⟩
  rcases hread with ⟨f'', hread, he⟩ | ⟨source, hread, he⟩
  · rw [hf'] at he
    cases he
    exact joinAndBind_of_error (Compiler.build_onValues_of_error hv hread)
  · rw [hf'] at he
    have happend : q.append (source.join kind q.slotCount) =
        .ok ⟨q.base, q.joins ++ [source.join kind q.slotCount], q.aliases⟩ :=
      append_eq_ok_iff.mpr ⟨rfl, q.aliases, rfl, rfl⟩
    obtain ⟨bounds, slots, hjoins, rfl⟩ :=
      Binder.bindJoins_of_bind hq (source.join kind q.slotCount)
    rw [joinAndBind_of_append (Compiler.build_onValues_of_ok hv hread) happend, Query.bind,
      Binder.bind_append_of_ok hjoins, ← Binder.length_of_bindJoins_base hjoins,
      Binder.bindJoin_values_of_error he]
    rfl

/-- A list that is read is bound as its cells are. -/
theorem joinAndBind_onValues_of_ok (hq : q.bind args binder = .ok bq)
    (hv : Invocation.ValidOnValues c q qualifier binding vars? kind)
    (hr : t.RowsGiven args rows) (ht : t.TypesGiven args types) {site : String}
    {checked : ValuesList} (h : t.read site = .ok checked) :
    q.joinAndBind (.onValues qualifier binding vars? rows types) args c binder =
      (checked.cells.mapM (Binder.bindCell ⟨binder, args⟩ ⟨{}, bq.slotSchemas, binder.view⟩)).map
        fun cells =>
          { bq with joins := bq.joins ++ [checked.boundJoin kind q.slotCount cells] } := by
  obtain ⟨site', hread⟩ := PlainTable.exists_read ⟨binder, args⟩ hr ht (.values rows types)
  have hchecked : t.read site' = .ok checked :=
    PlainTable.read_eq_ok_iff.mpr (PlainTable.read_eq_ok_iff.mp h)
  rw [hchecked] at hread
  rcases hread with ⟨f, -, he⟩ | ⟨source, hread, he⟩
  · cases he
  · have happend : q.append (source.join kind q.slotCount) =
        .ok ⟨q.base, q.joins ++ [source.join kind q.slotCount], q.aliases⟩ :=
      append_eq_ok_iff.mpr ⟨rfl, q.aliases, rfl, rfl⟩
    obtain ⟨bounds, slots, hjoins, rfl⟩ :=
      Binder.bindJoins_of_bind hq (source.join kind q.slotCount)
    rw [joinAndBind_of_append (Compiler.build_onValues_of_ok hv hread) happend, Query.bind,
      Binder.bind_append_of_ok hjoins, ← Binder.length_of_bindJoins_base hjoins,
      Binder.bindJoin_values_of_ok he, Binder.context, Binder.schemas_of_bindJoins_base hjoins]
    cases checked.cells.mapM (Binder.bindCell ⟨binder, args⟩ _) <;> rfl

/-- A list with a value that its type does not accept fails both steps together. -/
theorem joinAndBind_onValues_of_reject {cs : Columns} (hc : t.Declares cs) {checked : ValuesList}
    (hl : t.list cs = .ok checked) {ctx : Context} {f : Failure}
    (h : checked.cells.mapM (Binder.bindCell ⟨binder, args⟩ ctx) = .error f) :
    ∃ v type, t.Rejects v type ∧ f = .parameterType v.text type.name v.text := by
  rw [PlainTable.cells_of_list hl] at h
  obtain ⟨cell, hcell, hf⟩ := exists_of_mapM_eq_error h
  obtain ⟨⟨v, type⟩, hmem, rfl⟩ := List.mem_map.mp hcell
  rw [Param.ofCell, Binder.bindCell_literal] at hf
  split at hf
  · cases hf
  · rename_i hrejected
    cases hf
    exact ⟨v, type, hc.rejects_iff.mpr ⟨hmem, Bool.eq_false_iff.mpr hrejected⟩, rfl⟩

/-- A table of plain values comes to the same however its rows and its types are given. Either the
table has no fault and no value that its type does not accept, and every way gives the same bound
join with the columns and the cells of the table, behind the joins that were there; or all of them
report one fault of the table; or all of them report one value that the type of its field does not
accept. -/
theorem values_agree_however_given (t : PlainTable) (hq : q.bind args binder = .ok bq)
    (hv : Invocation.ValidOnValues c q qualifier binding vars? kind) :
    (∃ columns, t.Declares columns ∧ (∀ fault, ¬ t.Faulty fault) ∧
      (∀ v type, ¬ t.Rejects v type) ∧
      ∀ rows types, t.RowsGiven args rows → t.TypesGiven args types →
        q.joinAndBind (.onValues qualifier binding vars? rows types) args c binder =
          .ok { bq with joins := bq.joins ++
            [⟨kind, .values columns t.rows.length (t.cells columns), ⟨.truth, []⟩, none, none, [],
              .empty, q.slotCount, 1⟩] }) ∨
    (∃ fault, t.Faulty fault ∧ ∀ rows types, t.RowsGiven args rows → t.TypesGiven args types →
      ∃ f, q.joinAndBind (.onValues qualifier binding vars? rows types) args c binder = .error f ∧
        f.code = "JOIN_008" ∧ f.diagnostic.message = fault.message) ∨
    ∃ v type, t.Rejects v type ∧ ∀ rows types, t.RowsGiven args rows → t.TypesGiven args types →
      ∃ f, q.joinAndBind (.onValues qualifier binding vars? rows types) args c binder = .error f ∧
        f.code = "JOIN_013" ∧ f.diagnostic.message =
          "value " ++ backticked v.text ++ " does not match type " ++ backticked type.name := by
  cases hread : t.read "" with
  | error f =>
    obtain ⟨fault, hfault, site, rfl⟩ := PlainTable.read_eq_error hread
    refine .inr (.inl ⟨fault, hfault, fun rows types hr ht => ?_⟩)
    exact joinAndBind_onValues_of_error hq hv hr ht hread
  | ok checked =>
    obtain ⟨cs, hc, hlist⟩ := PlainTable.read_eq_ok_iff.mp hread
    have hstagings : ∀ rows types, t.RowsGiven args rows → t.TypesGiven args types → _ :=
      fun rows types hr ht => joinAndBind_onValues_of_ok hq hv hr ht hread
    cases hcells : checked.cells.mapM
        (Binder.bindCell ⟨binder, args⟩ ⟨{}, bq.slotSchemas, binder.view⟩) with
    | ok cells =>
      obtain ⟨rfl, hcount, -⟩ := ValuesList.check_eq_ok hlist
      rw [List.length_map] at hcount
      have hbound := hcells
      rw [PlainTable.cells_of_list hlist, Binder.mapM_bindCell_eq_ok_iff] at hbound
      obtain ⟨haccepted, rfl⟩ := hbound
      have hnone : ∀ v type, ¬ t.Rejects v type := by
        intro v type hreject
        obtain ⟨hmem, hrejected⟩ := hc.rejects_iff.mp hreject
        exact Bool.eq_false_iff.mp hrejected (haccepted _ hmem)
      refine .inl ⟨checked.columns, hc, PlainTable.not_faulty_of_list hc hlist, hnone,
        fun rows types hr ht => ?_⟩
      rw [hstagings rows types hr ht, hcells, ← hcount]
      rfl
    | error f =>
      obtain ⟨v, type, hreject, rfl⟩ := joinAndBind_onValues_of_reject hc hlist hcells
      refine .inr (.inr ⟨v, type, hreject, fun rows types hr ht => ?_⟩)
      rw [hstagings rows types hr ht, hcells]
      exact ⟨_, rfl, rfl, rfl⟩

end Query

namespace Sample

/-- `values([%{id: 1, title: "a"}, %{id: 2, title: "b"}], %{id: "integer", title: "string"})`. -/
def numbered : PlainTable where
  rows := [.ofList [("id", .literal (.integer 1)), ("title", .literal (.string "a"))],
    .ofList [("title", .literal (.string "b")), ("id", .literal (.integer 2))]]
  types := .ofList [("id", .string "integer"), ("title", .atom "string")]

def numberedRows : Expr := .list [
  .keyword [("id", .literal (.integer 1)), ("title", .literal (.string "a"))],
  .map [("title", .literal (.string "b")), ("id", .literal (.integer 2))]]

def numberedTypes : Expr :=
  .keyword [("id", .literal (.string "integer")), ("title", .atom "string")]

def numberedColumns : Columns := [("id", .integer), ("title", .string)]

theorem declares_numbered : numbered.Declares numberedColumns := by
  have hid : ColumnType.parse "integer" = .ok .integer := ColumnType.parse_of_plain rfl rfl
  have htitle : ColumnType.parse "string" = .ok .string := ColumnType.parse_of_plain rfl rfl
  exact .cons ⟨rfl, hid⟩ (.cons ⟨rfl, htitle⟩ .nil)

/-- The rows for `^0` and the types for `^1`. -/
def numberedLater : Arguments := .positional [.value numbered.rowsValue, .value numbered.typesValue]

/-- `join(query, :left, [p], v in values(rows, types))`. -/
def onNumbered (rows types : Expr) : Invocation :=
  .onValues (.atom "left") (.list [.var "p"]) (some (.var "v")) rows types

def boundNumbered : BoundQuery := ⟨posts.base, [⟨.left,
  .values [("id", .integer), ("title", .string)] 2 [(.integer 1, .integer), (.string "a", .string),
    (.integer 2, .integer), (.string "b", .string)], ⟨.truth, []⟩, none, none, [], .empty, 1, 1⟩],
  .empty⟩

/-- What is written comes to this, so what is supplied does too. -/
theorem values_agree_numbered :
    posts.bind numberedLater binder = .ok ⟨posts.base, [], .empty⟩ ∧
      Invocation.ValidOnValues compiler posts (.atom "left") (.list [.var "p"]) (some (.var "v"))
        .left ∧
      posts.joinAndBind (onNumbered numberedRows numberedTypes) numberedLater compiler binder =
        .ok boundNumbered ∧
      posts.joinAndBind (onNumbered (.interpolate (.positional 0)) numberedTypes) numberedLater
        compiler binder = .ok boundNumbered ∧
      posts.joinAndBind (onNumbered numberedRows (.interpolate (.positional 1))) numberedLater
        compiler binder = .ok boundNumbered ∧
      posts.joinAndBind (onNumbered (.interpolate (.positional 0)) (.interpolate (.positional 1)))
        numberedLater compiler binder = .ok boundNumbered := by
  have hq : posts.bind numberedLater binder = .ok ⟨posts.base, [], .empty⟩ := rfl
  have hv : Invocation.ValidOnValues compiler posts (.atom "left") (.list [.var "p"])
      (some (.var "v")) .left :=
    ⟨rfl, _, .single (some "v"), rfl, rfl, (fun _ h => (Option.some.inj h).symm), rfl⟩
  have hrows : numbered.RowsGiven numberedLater numberedRows :=
    .written (.cons .keyword (.cons .map .nil))
  have hrows' : numbered.RowsGiven numberedLater (.interpolate (.positional 0)) := .supplied rfl
  have htypes : numbered.TypesGiven numberedLater numberedTypes := .written .keyword
  have htypes' : numbered.TypesGiven numberedLater (.interpolate (.positional 1)) := .supplied rfl
  have hread : numbered.read "" = .ok _ :=
    PlainTable.read_eq_ok_iff.mpr ⟨_, declares_numbered, rfl⟩
  have hwritten : posts.joinAndBind (onNumbered numberedRows numberedTypes) numberedLater compiler
      binder = .ok boundNumbered :=
    Query.joinAndBind_onValues_of_ok hq hv hrows htypes hread
  rcases Query.values_agree_however_given numbered hq hv with
    ⟨columns, -, -, -, h⟩ | ⟨fault, -, h⟩ | ⟨v, type, -, h⟩
  · have hsame := (h _ _ hrows htypes).symm.trans hwritten
    exact ⟨hq, hv, hwritten, (h _ _ hrows' htypes).trans hsame, (h _ _ hrows htypes').trans hsame,
      (h _ _ hrows' htypes').trans hsame⟩
  · obtain ⟨f, hf, -⟩ := h _ _ hrows htypes
    cases hwritten.symm.trans hf
  · obtain ⟨f, hf, -⟩ := h _ _ hrows htypes
    cases hwritten.symm.trans hf

end Sample
end StagedJoin
