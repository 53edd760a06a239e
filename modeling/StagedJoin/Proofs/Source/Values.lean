import StagedJoin.Proofs.OrderedMap
import StagedJoin.Proofs.Source.Rectangular

/-!
What the readers of values lists read. A cell of a checked list is a value of one of
its rows, with the type of its column. A table of plain values is read to the same rows
and the same columns whether it is written in a join or supplied later, and what its
check reports names the row and the field that are at fault.
-/
namespace StagedJoin

/-- A type name that is not an array's is looked up. -/
theorem ColumnType.parse_of_plain {name : String} {t : ColumnType}
    (he : elementName? (Text.trim name.toList) = none)
    (hp : plain? (String.ofList ((Text.trim name.toList).map Char.toLower)) = some t) :
    parse name = .ok t := by
  have hchars : parseChars name.toList = .ok t := by
    unfold parseChars
    split
    · rename_i element h
      cases he.symm.trans h
    · rw [hp]
  rw [parse, hchars]

/-! ## Cells -/

namespace ValuesList

/-- A list that passes its check has its columns and as many rows, and its cells are values of its
rows. -/
theorem check_eq_ok {rows : List ValuesRow} {columns : Columns} {list : ValuesList}
    (h : check rows columns = .ok list) :
    list.columns = columns ∧ list.rowCount = rows.length ∧
      ∀ cell ∈ list.cells, ∃ row ∈ rows, ∃ column ∈ columns,
        row.get? column.1 = some cell.value ∧ cell.tag = .type column.2 := by
  obtain ⟨-, -, cells, hcells, rfl⟩ := check_eq_ok_iff.mp h
  obtain ⟨parts, hparts, rfl⟩ := layOut_eq_ok_iff.mp hcells
  refine ⟨rfl, rfl, fun cell hcell => ?_⟩
  obtain ⟨part, hpart, hcell⟩ := List.mem_flatten.mp hcell
  obtain ⟨row, hrow, hpart⟩ := exists_left_of_forall₂ hparts hpart
  obtain ⟨column, hcolumn, hvalue⟩ :=
    exists_left_of_forall₂ (ValuesRow.cells_eq_ok_iff.mp hpart) hcell
  exact ⟨row, hrow, column, hcolumn, hvalue⟩

end ValuesList

/-- A value that is there already, with its type. -/
def Param.ofCell (cell : Value × ColumnType) : Param := ⟨.literal cell.1, .type cell.2⟩

/-! ## Plain tables -/

/-- A value that an expression and a runtime value can both be. -/
inductive PlainValue where
  | literal (l : Literal)
  | atom (name : String)

namespace PlainValue

def expr : PlainValue → Expr
  | .literal l => .literal l
  | .atom name => .atom name

def value : PlainValue → Value
  | .literal l => l.value
  | .atom name => .atom name

end PlainValue

/-- The name of a type, as an atom or as a string. -/
inductive TypeName where
  | atom (name : String)
  | string (name : String)

namespace TypeName

def text : TypeName → String
  | .atom name => name
  | .string name => name

def expr : TypeName → Expr
  | .atom name => .atom name
  | .string name => .literal (.string name)

def value : TypeName → Value
  | .atom name => .atom name
  | .string name => .string name

end TypeName

/-- Rows of plain values, and the names of the types of their fields. -/
structure PlainTable where
  rows : List (OrderedMap PlainValue)
  types : OrderedMap TypeName

namespace PlainTable

/-- A row as it is read. -/
def row (fields : OrderedMap PlainValue) : ValuesRow := fields.mapValues fun v => .literal v.value

/-- A column as it is read. -/
def column (e : String × TypeName) : Except Failure (String × ColumnType) := do
  return (e.1, ← ValuesList.columnType e.1 e.2.text)

theorem column_eq_ok_iff {e : String × TypeName} {c : String × ColumnType} :
    column e = .ok c ↔ c.1 = e.1 ∧ ColumnType.parse e.2.text = .ok c.2 := by
  obtain ⟨field, type⟩ := c
  unfold column ValuesList.columnType
  cases ColumnType.parse e.2.text with
  | error unknown => exact ⟨nofun, fun h => nomatch h.2⟩
  | ok parsed =>
    rw [ok_bind, pure_eq_ok, Prod.mk.injEq, Except.ok.injEq]
    exact and_congr_left' eq_comm

def columns (t : PlainTable) : Except Failure Columns := t.types.entries.mapM column

def list (t : PlainTable) (columns : Columns) : Except ValuesFault ValuesList :=
  ValuesList.check (t.rows.map row) columns

/-- The columns that a table declares: its fields in order, each with the type that is named. -/
def Declares (t : PlainTable) (columns : Columns) : Prop :=
  List.Forall₂ (fun e column => column.1 = e.1 ∧ ColumnType.parse e.2.text = .ok column.2)
    t.types.entries columns

/-- The values of a table row by row, in the order of the columns and with their types. -/
def cells (t : PlainTable) (columns : Columns) : List (Value × ColumnType) :=
  t.rows.flatMap fun fields => columns.filterMap fun column =>
    (fields.get? column.1).map fun plain => (plain.value, column.2)

/-! ### Written in a join -/

/-- A row as a keyword list or a map. -/
inductive RowWritten (fields : OrderedMap PlainValue) : Expr → Prop
  | keyword : RowWritten fields (.keyword (fields.mapValues PlainValue.expr).entries)
  | map : RowWritten fields (.map (fields.mapValues PlainValue.expr).entries)

inductive TypesWritten (types : OrderedMap TypeName) : Expr → Prop
  | keyword : TypesWritten types (.keyword (types.mapValues TypeName.expr).entries)
  | map : TypesWritten types (.map (types.mapValues TypeName.expr).entries)

theorem fieldValue_expr (field : String) (index : Nat) (v : PlainValue) :
    ValuesList.fieldValue field index v.expr = .ok (.literal v.value) := by
  cases v <;> rfl

theorem rowOfPairs_eq (index : Nat) {pairs : List (String × PlainValue)} {before : ValuesRow}
    (hd : (before.keys ++ pairs.map Prod.fst).Nodup) :
    ValuesList.rowOfPairs index before (pairs.map fun e => (e.1, e.2.expr)) =
      .ok ((pairs.map fun e => (e.1, .literal e.2.value)).foldl
        (fun m e => OrderedMap.insert m e.1 e.2) before) := by
  induction pairs generalizing before with
  | nil => rfl
  | cons pair rest ih =>
    have hnew : before.get? pair.1 = none := by
      rw [OrderedMap.get?_eq_none_iff]
      intro hm
      rw [List.map_cons, List.nodup_append] at hd
      exact hd.2.2 _ hm _ List.mem_cons_self rfl
    have hkeys : (before.insert pair.1 (.literal pair.2.value)).keys ++ rest.map Prod.fst =
        before.keys ++ (pair :: rest).map Prod.fst := by
      rw [OrderedMap.keys, OrderedMap.entries_insert_of_get?_none _ _ _ hnew]
      simp [OrderedMap.keys]
    rw [List.map_cons, ValuesList.rowOfPairs]
    simp only [fieldValue_expr, OrderedMap.contains, hnew]
    exact ih (hkeys ▸ hd)

theorem foldl_insert_eq_row (fields : OrderedMap PlainValue) :
    (fields.entries.map fun e => (e.1, Staged.literal e.2.value)).foldl
      (fun m e => OrderedMap.insert m e.1 e.2) .empty = row fields :=
  OrderedMap.ofList_entries (row fields)

theorem RowWritten.rowOfExpr_eq {fields : OrderedMap PlainValue} {e : Expr}
    (h : RowWritten fields e) (index : Nat) : ValuesList.rowOfExpr index e = .ok (row fields) := by
  have hpairs : ValuesList.rowOfPairs index .empty (fields.mapValues PlainValue.expr).entries =
      .ok (row fields) := by
    rw [← foldl_insert_eq_row]
    exact rowOfPairs_eq index (by simpa [OrderedMap.keys, OrderedMap.empty] using fields.distinct)
  cases h with
  | keyword => exact hpairs
  | map => exact hpairs

theorem rowsOfItems_eq {rows : List (OrderedMap PlainValue)} {items : List Expr}
    (h : List.Forall₂ RowWritten rows items) (index : Nat) :
    ValuesList.rowsOfItems index items = .ok (rows.map row) := by
  induction h generalizing index with
  | nil => rfl
  | cons hrow _ ih =>
    rw [ValuesList.rowsOfItems, hrow.rowOfExpr_eq, ok_bind, ih, ok_bind]
    rfl

theorem columnsOfPairs_eq (e : Expr) (types : List (String × TypeName)) :
    ValuesList.columnsOfPairs e (types.map fun t => (t.1, t.2.expr)) = types.mapM column := by
  induction types with
  | nil => rfl
  | cons t rest ih =>
    obtain ⟨field, name⟩ := t
    rw [List.mapM_cons, ← ih]
    cases name with
    | atom n =>
      simp only [List.map_cons, TypeName.expr, ValuesList.columnsOfPairs, column, TypeName.text,
        ok_bind]
      cases ValuesList.columnType field n <;> rfl
    | string n =>
      simp only [List.map_cons, TypeName.expr, ValuesList.columnsOfPairs, column, TypeName.text,
        ok_bind]
      cases ValuesList.columnType field n <;> rfl

theorem TypesWritten.columnsOfExpr_eq {t : PlainTable} {e : Expr} (h : TypesWritten t.types e) :
    ValuesList.columnsOfExpr e = t.columns := by
  cases h with
  | keyword => exact columnsOfPairs_eq _ t.types.entries
  | map => exact columnsOfPairs_eq _ t.types.entries

/-! ### Supplied later -/

def rowsValue (t : PlainTable) : Value :=
  .list (t.rows.map fun fields => .map (fields.mapValues PlainValue.value).entries)

def typesValue (t : PlainTable) : Value := .map (t.types.mapValues TypeName.value).entries

theorem rowOfValue_eq (fields : OrderedMap PlainValue) (index : Nat) :
    ValuesList.rowOfValue index (.map (fields.mapValues PlainValue.value).entries) =
      .ok (row fields) := by
  have hentries : ((fields.mapValues PlainValue.value).entries.map fun e =>
      (e.1, Staged.literal e.2)) = (row fields).entries := by
    simp only [OrderedMap.mapValues, row, List.map_map]
    rfl
  rw [ValuesList.rowOfValue, hentries, OrderedMap.ofList_entries]

theorem rowsOfValue_eq (t : PlainTable) :
    ValuesList.rowsOfValue t.rowsValue = .ok (t.rows.map row) := by
  have hrows : ∀ (rows : List (OrderedMap PlainValue)) (index : Nat),
      ValuesList.rowsOfValues index
        (rows.map fun fields => .map (fields.mapValues PlainValue.value).entries) =
        .ok (rows.map row) := by
    intro rows
    induction rows with
    | nil => exact fun _ => rfl
    | cons fields rest ih =>
      intro index
      rw [List.map_cons, ValuesList.rowsOfValues, rowOfValue_eq, ok_bind, ih, ok_bind]
      rfl
  exact hrows t.rows 0

theorem columnsOfEntries_eq (v : Value) (types : List (String × TypeName)) :
    ValuesList.columnsOfEntries v (types.map fun t => (t.1, t.2.value)) = types.mapM column := by
  induction types with
  | nil => rfl
  | cons t rest ih =>
    obtain ⟨field, name⟩ := t
    rw [List.mapM_cons, ← ih]
    cases name with
    | atom n =>
      simp only [List.map_cons, TypeName.value, ValuesList.columnsOfEntries, column, TypeName.text,
        ok_bind]
      cases ValuesList.columnType field n <;> rfl
    | string n =>
      simp only [List.map_cons, TypeName.value, ValuesList.columnsOfEntries, column, TypeName.text,
        ok_bind]
      cases ValuesList.columnType field n <;> rfl

theorem columnsOfValue_eq (t : PlainTable) :
    ValuesList.columnsOfValue t.typesValue = t.columns := by
  have hentries := OrderedMap.ofList_entries (t.types.mapValues TypeName.value)
  rw [typesValue, ValuesList.columnsOfValue]
  simp only [hentries]
  exact columnsOfEntries_eq _ t.types.entries

/-! ### What is reported -/

/-- The faults that a table of plain values can have. -/
inductive Faulty (t : PlainTable) : ValuesFault → Prop
  | empty (h : t.rows = []) : Faulty t .empty
  | unknownType {field : String} {name : TypeName} (h : t.types.get? field = some name)
      (hname : ∀ type, ColumnType.parse name.text ≠ .ok type) :
      Faulty t (.unknownType field name.text)
  | undeclared {fields : OrderedMap PlainValue} {field : String} (h : fields ∈ t.rows)
      (hfield : field ∈ fields.keys) (htype : field ∉ t.types.keys) :
      Faulty t (.undeclaredType field)
  | missing {number : Nat} {fields : OrderedMap PlainValue} {field : String}
      (h : t.rows[number]? = some fields) (hfield : field ∉ fields.keys)
      (htype : field ∈ t.types.keys) : Faulty t (.missingField field number (row fields).text)

/-- A value of the table that the type declared for its field does not accept. -/
structure Rejects (t : PlainTable) (v : Value) (type : ColumnType) : Prop where
  occurs : ∃ fields ∈ t.rows, ∃ field plain name, fields.get? field = some plain ∧
    plain.value = v ∧ t.types.get? field = some name ∧ ColumnType.parse name.text = .ok type
  rejected : type.accepts v = false

theorem keys_row (fields : OrderedMap PlainValue) : (row fields).keys = fields.keys := by
  simp only [OrderedMap.keys, row, OrderedMap.mapValues, List.map_map]
  rfl

variable {t : PlainTable}

theorem columns_eq_error {f : Failure} (h : t.columns = .error f) :
    ∃ fault site, f = .values fault site ∧ t.Faulty fault := by
  obtain ⟨⟨field, name⟩, he, hcolumn⟩ := exists_of_mapM_eq_error h
  unfold column ValuesList.columnType at hcolumn
  cases hparse : ColumnType.parse name.text with
  | ok type =>
    simp only [hparse] at hcolumn
    cases hcolumn
  | error unknown =>
    simp only [hparse] at hcolumn
    cases hcolumn
    have hname : ∀ type, ColumnType.parse name.text ≠ .ok type :=
      fun type ht => nomatch hparse.symm.trans ht
    exact ⟨_, _, rfl, .unknownType (OrderedMap.mem_entries_iff.mp he) hname⟩

theorem columns_eq_ok_iff {cs : Columns} : t.columns = .ok cs ↔ t.Declares cs := by
  simp only [columns, Declares, mapM_eq_ok_iff, column_eq_ok_iff]

theorem Declares.keys_eq {cs : Columns} (h : t.Declares cs) : cs.map Prod.fst = t.types.keys := by
  have hnames :
      List.Forall₂ (fun e c => c = e) (t.types.entries.map Prod.fst) (cs.map Prod.fst) :=
    List.forall₂_map_left_iff.mpr (List.forall₂_map_right_iff.mpr (h.imp fun e c hec => hec.1))
  exact List.forall₂_eq_eq_eq ▸ hnames.flip

theorem Declares.exists_column {cs : Columns} (h : t.Declares cs) {field : String} {name : TypeName}
    (hname : t.types.get? field = some name) :
    ∃ type, (field, type) ∈ cs ∧ ColumnType.parse name.text = .ok type := by
  obtain ⟨⟨_, type⟩, hc, rfl, htype⟩ :=
    exists_left_of_forall₂ h.flip (OrderedMap.mem_entries_iff.mpr hname)
  exact ⟨type, hc, htype⟩

/-- Each field of a table is declared with the type that is named for it. -/
theorem Declares.mem_iff {cs : Columns} (h : t.Declares cs) {field : String} {type : ColumnType} :
    (field, type) ∈ cs ↔ ∃ name, t.types.get? field = some name ∧
      ColumnType.parse name.text = .ok type := by
  constructor
  · intro hc
    obtain ⟨⟨key, name⟩, he, hfield, hparse⟩ := exists_left_of_forall₂ h hc
    cases hfield
    exact ⟨name, OrderedMap.mem_entries_iff.mp he, hparse⟩
  · rintro ⟨name, hname, hparse⟩
    obtain ⟨type', hc, htype⟩ := h.exists_column hname
    cases hparse.symm.trans htype
    exact hc

/-- The cells of a table are the values of its rows with the types of their fields. -/
theorem Declares.mem_cells_iff {cs : Columns} (h : t.Declares cs) {v : Value} {type : ColumnType} :
    (v, type) ∈ t.cells cs ↔ ∃ fields ∈ t.rows, ∃ field plain name, fields.get? field = some plain ∧
      plain.value = v ∧ t.types.get? field = some name ∧ ColumnType.parse name.text = .ok type := by
  simp only [cells, List.mem_flatMap, List.mem_filterMap, Option.map_eq_some_iff, Prod.mk.injEq]
  constructor
  · rintro ⟨fields, hf, ⟨field, type'⟩, hc, plain, hplain, hv, rfl⟩
    obtain ⟨name, hname, hparse⟩ := h.mem_iff.mp hc
    exact ⟨fields, hf, field, plain, name, hplain, hv, hname, hparse⟩
  · rintro ⟨fields, hf, field, plain, name, hplain, hv, hname, hparse⟩
    exact ⟨fields, hf, (field, type), h.mem_iff.mpr ⟨name, hname, hparse⟩, plain, hplain, hv, rfl⟩

theorem Declares.rejects_iff {cs : Columns} (h : t.Declares cs) {v : Value} {type : ColumnType} :
    t.Rejects v type ↔ (v, type) ∈ t.cells cs ∧ type.accepts v = false := by
  rw [h.mem_cells_iff]
  exact ⟨fun hr => ⟨hr.occurs, hr.rejected⟩, fun ⟨hoccurs, hrejected⟩ => ⟨hoccurs, hrejected⟩⟩

/-- What the check of a table reports is a fault of the table. -/
theorem list_eq_error {cs : Columns} (hc : t.Declares cs) {fault : ValuesFault}
    (h : t.list cs = .error fault) : t.Faulty fault := by
  have hfields := hc.keys_eq
  cases ValuesList.refused_of_check h with
  | empty hrows => exact .empty (List.map_eq_nil_iff.mp hrows)
  | @undeclaredType front back written before after name hrows _ hkeys _ hname =>
    have hwritten : written ∈ t.rows.map row := by
      rw [hrows]
      exact List.mem_append_right _ List.mem_cons_self
    obtain ⟨fields, hf, rfl⟩ := List.mem_map.mp hwritten
    rw [keys_row] at hkeys
    refine .undeclared hf ?_ (hfields ▸ hname)
    rw [hkeys]
    exact List.mem_append_right _ List.mem_cons_self
  | @missingField front back written present absent name type _ hrows _ hcolumns _ hname =>
    have hwritten : (t.rows.map row)[front.length]? = some written := by
      rw [hrows]
      simp
    rw [List.getElem?_map] at hwritten
    obtain ⟨fields, hf, rfl⟩ := Option.map_eq_some_iff.mp hwritten
    rw [keys_row] at hname
    refine .missing hf hname ?_
    rw [← hfields, hcolumns, List.map_append]
    exact List.mem_append_right _ List.mem_cons_self

/-- A table that makes a list has no fault. -/
theorem not_faulty_of_list {cs : Columns} (hc : t.Declares cs) {list : ValuesList}
    (h : t.list cs = .ok list) (fault : ValuesFault) : ¬ t.Faulty fault := by
  obtain ⟨hne, hfields⟩ := ValuesList.exists_check_iff.mp ⟨list, h⟩
  have hsame : ∀ fields ∈ t.rows, ∀ name, name ∈ fields.keys ↔ name ∈ t.types.keys := by
    intro fields hf name
    rw [← keys_row, ← hc.keys_eq]
    exact hfields _ (List.mem_map_of_mem hf) name
  intro hfault
  cases hfault with
  | empty hrows => exact hne (List.map_eq_nil_iff.mpr hrows)
  | unknownType hfield hname =>
    obtain ⟨type, -, hparse⟩ := hc.exists_column hfield
    exact hname type hparse
  | undeclared hf hfield htype => exact htype ((hsame _ hf _).mp hfield)
  | missing hf hfield htype => exact hfield ((hsame _ (List.mem_of_getElem? hf) _).mpr htype)

/-- The cells of a row that has every column are its values. -/
theorem cells_of_row {cs : Columns} {fields : OrderedMap PlainValue} {part : List Param}
    (h : (row fields).cells cs = .ok part) :
    part = (cs.filterMap fun column =>
      (fields.get? column.1).map fun plain => (plain.value, column.2)).map Param.ofCell := by
  rw [ValuesRow.cells_eq_ok_iff] at h
  induction h with
  | nil => rfl
  | @cons column cell _ _ hcell _ ih =>
    obtain ⟨hvalue, htag⟩ := hcell
    rw [row, OrderedMap.get?_mapValues] at hvalue
    obtain ⟨plain, hplain, hv⟩ := Option.map_eq_some_iff.mp hvalue
    obtain ⟨value, tag⟩ := cell
    cases hv
    cases htag
    rw [List.filterMap_cons, hplain, ih]
    rfl

/-- The cells of the list of a table are those of the table. -/
theorem cells_of_list {cs : Columns} {list : ValuesList} (h : t.list cs = .ok list) :
    list.cells = (t.cells cs).map Param.ofCell := by
  obtain ⟨-, -, cells, hcells, rfl⟩ := ValuesList.check_eq_ok_iff.mp h
  obtain ⟨parts, hparts, rfl⟩ := ValuesList.layOut_eq_ok_iff.mp hcells
  rw [List.forall₂_map_left_iff] at hparts
  have hsame := List.forall₂_map_left_iff.mpr (hparts.imp fun fields part h => (cells_of_row h).symm)
  rw [List.forall₂_eq_eq_eq] at hsame
  rw [PlainTable.cells, List.map_flatMap, List.flatMap_def, hsame]

end PlainTable
end StagedJoin
