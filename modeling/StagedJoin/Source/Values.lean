import StagedJoin.ColumnType.Parser
import StagedJoin.Expr
import StagedJoin.Failure

/-!
Values lists: rows and typed columns, written in a join or supplied when a query
is bound. A list is accepted when it has rows and each row has exactly the
declared columns; its cells are then laid out row by row.
-/
namespace StagedJoin

abbrev Columns := List (String × ColumnType)

namespace ValuesRow

def text (row : ValuesRow) : String :=
  "%\x7b" ++ String.intercalate ", "
    (row.entries.map fun e => e.1 ++ ": " ++ e.2.text Value.text) ++ "\x7d"

/-- The first field of a row that is no column. -/
def undeclared? (columns : Columns) (row : ValuesRow) : Option String :=
  row.keys.find? fun name => !columns.any (·.1 = name)

/-- The cells of a row in the order of the columns; fails with a column it lacks. -/
def cells (row : ValuesRow) : Columns → Except String (List Param)
  | [] => .ok []
  | (name, type) :: rest =>
    match row.get? name with
    | none => .error name
    | some value =>
      match cells row rest with
      | .error missing => .error missing
      | .ok cs => .ok (⟨value, .type type⟩ :: cs)

end ValuesRow

namespace ValuesList

def undeclared? (columns : Columns) (rows : List ValuesRow) : Option String :=
  rows.findSome? (ValuesRow.undeclared? columns)

/-- The cells of the rows from number `index` on. -/
def layOut (columns : Columns) (index : Nat) : List ValuesRow → Except ValuesFault (List Param)
  | [] => .ok []
  | row :: rest =>
    match row.cells columns with
    | .error name => .error (.missingField name index row.text)
    | .ok cs =>
      match layOut columns (index + 1) rest with
      | .error fault => .error fault
      | .ok more => .ok (cs ++ more)

/-- Checks that rows and columns have the same fields. -/
def check (rows : List ValuesRow) (columns : Columns) : Except ValuesFault ValuesList :=
  if rows.isEmpty then .error .empty
  else
    match undeclared? columns rows with
    | some name => .error (.undeclaredType name)
    | none =>
      match layOut columns 0 rows with
      | .error fault => .error fault
      | .ok cells => .ok ⟨columns, rows.length, cells⟩

/-- The type that a field is declared with. -/
def columnType (field typeName : String) : Except Failure ColumnType :=
  match ColumnType.parse typeName with
  | .ok t => .ok t
  | .error _ => .error (.values (.unknownType field typeName) typeName)

/-- The value of a field, which must be a literal, an atom or an interpolation. -/
def fieldValue (field : String) (row : Nat) : Expr → Except Failure (Staged Value)
  | .literal l => .ok (.literal l.value)
  | .atom name => .ok (.literal (.atom name))
  | .interpolate p => .ok (.deferred p)
  | other => .error (.values (.unsupportedValue field row other.text) other.text)

/-- Reads the fields of a row from left to right, none of them twice. -/
def rowOfPairs (index : Nat) (before : ValuesRow) :
    List (String × Expr) → Except Failure ValuesRow
  | [] => .ok before
  | (field, e) :: rest =>
    match fieldValue field index e with
    | .error failure => .error failure
    | .ok value =>
      if before.contains field then .error (.values (.duplicateField field index) field)
      else rowOfPairs index (before.insert field value) rest

def rowOfExpr (index : Nat) : Expr → Except Failure ValuesRow
  | .keyword pairs => rowOfPairs index .empty pairs
  | .map pairs => rowOfPairs index .empty pairs
  | other => .error (.values (.notARow index other.text) other.text)

def rowsOfItems (index : Nat) : List Expr → Except Failure (List ValuesRow)
  | [] => .ok []
  | e :: rest => do
    let row ← rowOfExpr index e
    return row :: (← rowsOfItems (index + 1) rest)

/-- Rows as written in a join: a list of keyword lists or maps. -/
def rowsOfExpr : Expr → Except Failure (List ValuesRow)
  | .list items => rowsOfItems 0 items
  | other => .error (.values (.notARow 0 other.text) other.text)

/-- The column types of pairs `field: type`, in the declaration `types`. -/
def columnsOfPairs (types : Expr) : List (String × Expr) → Except Failure Columns
  | [] => .ok []
  | (field, e) :: rest => do
    let name ← match e with
      | .atom name => .ok name
      | .literal (.string name) => .ok name
      | other => .error (.values (.malformedTypes types.text) other.text)
    let type ← columnType field name
    return (field, type) :: (← columnsOfPairs types rest)

/-- Columns as written in a join: a keyword list or a map. -/
def columnsOfExpr (types : Expr) : Except Failure Columns :=
  match types with
  | .keyword pairs => columnsOfPairs types pairs
  | .map pairs => columnsOfPairs types pairs
  | other => .error (.values (.malformedTypes other.text) other.text)

def rowOfValue (index : Nat) : Value → Except Failure ValuesRow
  | .map entries => .ok (.ofList (entries.map fun e => (e.1, .literal e.2)))
  | other => .error (.values (.notARow index other.text) other.text)

def rowsOfValues (index : Nat) : List Value → Except Failure (List ValuesRow)
  | [] => .ok []
  | v :: rest => do
    let row ← rowOfValue index v
    return row :: (← rowsOfValues (index + 1) rest)

/-- Rows as supplied later: a list of maps. -/
def rowsOfValue : Value → Except Failure (List ValuesRow)
  | .list items => rowsOfValues 0 items
  | other => .error (.values (.notARow 0 other.text) other.text)

def columnsOfEntries (types : Value) : List (String × Value) → Except Failure Columns
  | [] => .ok []
  | (field, v) :: rest => do
    let name ← match v with
      | .atom name => .ok name
      | .string name => .ok name
      | other => .error (.values (.malformedTypes types.text) other.text)
    let type ← columnType field name
    return (field, type) :: (← columnsOfEntries types rest)

/-- Columns as supplied later: a map of fields to names of types. -/
def columnsOfValue (types : Value) : Except Failure Columns :=
  match types with
  | .map entries => columnsOfEntries types (OrderedMap.ofList entries).entries
  | other => .error (.values (.malformedTypes other.text) other.text)

end ValuesList

end StagedJoin
