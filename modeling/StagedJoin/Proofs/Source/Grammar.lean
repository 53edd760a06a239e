import StagedJoin.Proofs.Compiler.Parts
import StagedJoin.Proofs.JoinOptions.Reading

/-!
The grammar of sources. It says which expressions stand for which source and for how many
slots, in terms of the variables and schemas in view and without reference to how they are
read. The reader accepts an expression exactly if the grammar has it, with the same result.
-/
namespace StagedJoin

/-! ## Parts of a call -/

namespace Expr

variable {e : Expr}

/-- Names are atoms or strings. -/
inductive IsName : Expr → String → Prop
  | atom (name : String) : IsName (.atom name) name
  | string (name : String) : IsName (.string name) name

/-- Pairs are in a keyword list or in a map. -/
inductive IsPairs : Expr → List (String × Expr) → Prop
  | keyword (pairs : List (String × Expr)) : IsPairs (.keyword pairs) pairs
  | map (pairs : List (String × Expr)) : IsPairs (.map pairs) pairs

/-- The fields of a row differ, since it is an ordered map. -/
def IsRow (e : Expr) (row : ValuesRow) : Prop :=
  ∃ pairs, e.IsPairs pairs ∧ PairsRelated (fun _ => Gives IsScalar) pairs row.entries

def IsRows (e : Expr) (rows : List ValuesRow) : Prop :=
  ∃ items, e = .list items ∧ List.Forall₂ IsRow items rows

def IsType (e : Expr) (type : ColumnType) : Prop :=
  ∃ name, e.IsName name ∧ ColumnType.parse name = .ok type

def IsColumns (e : Expr) (columns : Columns) : Prop :=
  ∃ pairs, e.IsPairs pairs ∧ PairsRelated (fun _ => IsType) pairs columns

/-- A query with its slots, or a placeholder for one, whose slots are not known. -/
inductive Queried : Expr → Staged Query → Option Nat → Prop
  | literal (q : Query) : Queried (.query q) (.literal q) (some q.slotCount)
  | deferred (p : Placeholder) : Queried (.interpolate p) (.deferred p) none

end Expr

namespace JoinSource

open StagedJoin.Expr JoinOptions

/-- A subquery has no option but its prefix. -/
inductive Prefixed : Option Expr → Option (Staged String) → Prop
  | absent {options : Option Expr} (h : Given options []) : Prefixed options none
  | given {e : Expr} {s : Staged String} (h : Gives IsString e s) :
      Prefixed (some (.keyword [("prefix", e)])) (some s)

/-- An association is found where its owner's schema and its field are known; the schema that it
relates the owner to must be in view too. -/
inductive Resolved (ctx : SourceContext) (owner : Nat) :
    Staged String → Option ResolvedAssociation → Prop
  | field (p : Placeholder) : Resolved ctx owner (.deferred p) none
  | schema {field : Staged String} (h : ctx.schema? owner = none) : Resolved ctx owner field none
  | found {name schemaName : String} {schema related : Schema} {a : Association}
      (hname : ctx.schema? owner = some schemaName) (hschema : ctx.view schemaName = some schema)
      (ha : schema.associations.get? name = some a)
      (hrelated : ctx.view a.related = some related) :
      Resolved ctx owner (.literal name) (some {
        owner := schema.name
        field := name
        cardinality := a.cardinality
        related := related.name
        relatedSource := related.source
        ownerKey := a.ownerKey
        relatedKey := a.relatedKey })

/-- The expressions that stand for a source. -/
inductive Form (ctx : SourceContext) : Expr → SizedSource → Prop
  | table (name : String) : Form ctx (.string name) ⟨.table { table := some name }, some 1⟩
  | schema (name : String) : Form ctx (.schema name) ⟨.table { schema := some name }, some 1⟩
  | tableSchema (name schema : String) : Form ctx (.tuple [.string name, .schema schema])
      ⟨.table { table := some name, schema := some schema }, some 1⟩
  | runtime (p : Placeholder) : Form ctx (.interpolate p) ⟨.runtime p, some 1⟩
  | query {q : Query} (h : q.joins = []) : Form ctx (.query q) ⟨.table q.base.source, some 1⟩
  | subquery {inner : Expr} {options : Option Expr} {query : Staged Query} {slots : Option Nat}
      {tablePrefix : Option (Staged String)} (hinner : inner.Queried query slots)
      (hoptions : Prefixed options tablePrefix) :
      Form ctx (.call "subquery" (inner :: options.toList)) ⟨.subquery query tablePrefix, slots⟩
  | association {name : String} {slot : Nat} {e : Expr} {field : Staged String}
      {resolved : Option ResolvedAssociation} (hname : name ∉ ctx.vars.names)
      (hslot : ctx.scope.slot? name = some slot) (hfield : Gives IsName e field)
      (hresolved : Resolved ctx slot field resolved) :
      Form ctx (.call "assoc" [.var name, e]) ⟨.association ⟨slot, field, resolved⟩, some 1⟩
  | values {e types : Expr} {rows : List ValuesRow} {columns : Columns} {list : ValuesList}
      (hrows : e.IsRows rows) (hcolumns : types.IsColumns columns)
      (hcheck : ValuesList.check rows columns = .ok list) :
      Form ctx (.call "values" [e, types]) ⟨.values (.checked list), some 1⟩
  | rowsPending (p : Placeholder) {types : Expr} {columns : Staged Columns}
      (hcolumns : Gives IsColumns types columns) : Form ctx (.call "values" [.interpolate p, types])
        ⟨.values (.pending (.deferred p) columns), some 1⟩
  | columnsPending {e : Expr} {rows : Staged (List ValuesRow)} (hrows : Gives IsRows e rows)
      (p : Placeholder) : Form ctx (.call "values" [e, .interpolate p])
        ⟨.values (.pending rows (.deferred p)), some 1⟩

end JoinSource

/-! ## Values lists -/

namespace ValuesList

open StagedJoin.Expr

theorem fieldValue_eq_ok_iff {field : String} {index : Nat} {e : Expr} {v : Staged Value} :
    fieldValue field index e = .ok v ↔ Gives IsScalar e v := by
  constructor
  · intro h
    unfold fieldValue at h
    split at h <;> cases h
    · exact .literal (.literal _)
    · exact .literal (.atom _)
    · exact .deferred _
  · intro h
    cases h with
    | deferred p => rfl
    | literal h => cases h <;> rfl

/-- A row is read pair by pair, so the fields that are read go behind those before them. -/
theorem rowOfPairs_eq_ok_iff {index : Nat} {before row : ValuesRow} {pairs : List (String × Expr)} :
    rowOfPairs index before pairs = .ok row ↔ ∃ entries,
      PairsRelated (fun _ => Gives IsScalar) pairs entries ∧
        row.entries = before.entries ++ entries := by
  induction pairs generalizing before with
  | nil =>
    constructor
    · intro h
      cases h
      exact ⟨[], .nil, (List.append_nil _).symm⟩
    · rintro ⟨entries, hrelated, hrow⟩
      cases hrelated
      rw [rowOfPairs, OrderedMap.ext_entries (hrow.trans (List.append_nil _))]
  | cons pair rest ih =>
    obtain ⟨key, e⟩ := pair
    rw [rowOfPairs]
    constructor
    · intro h
      split at h
      · cases h
      · rename_i value hvalue
        split at h
        · cases h
        · rename_i hnew
          obtain ⟨entries, hrelated, hrow⟩ := ih.mp h
          have hinsert := OrderedMap.entries_insert_of_get?_none before key value
            (by simpa [OrderedMap.contains] using hnew)
          refine ⟨(key, value) :: entries, .cons ⟨rfl, fieldValue_eq_ok_iff.mp hvalue⟩ hrelated, ?_⟩
          rw [hrow, hinsert, List.append_assoc]
          rfl
    · rintro ⟨entries, hrelated, hrow⟩
      cases hrelated with
      | @cons _ new _ entries hvalue hrelated =>
        obtain ⟨field, value⟩ := new
        obtain ⟨hkey, hvalue⟩ := hvalue
        subst hkey
        -- the fields of the row differ, so this one has not been read before
        have hnew : before.get? field = none := by
          rw [OrderedMap.get?_eq_none_iff]
          intro hmem
          have hdistinct := row.distinct
          rw [hrow, List.map_append, List.nodup_append] at hdistinct
          exact hdistinct.2.2 field hmem field List.mem_cons_self rfl
        have hinsert := OrderedMap.entries_insert_of_get?_none before field value hnew
        have hcontains : ¬ before.contains field = true := by simp [OrderedMap.contains, hnew]
        rw [fieldValue_eq_ok_iff.mpr hvalue]
        dsimp only
        rw [if_neg hcontains]
        refine ih.mpr ⟨entries, hrelated, ?_⟩
        rw [hrow, hinsert, List.append_assoc]
        rfl

theorem rowOfExpr_eq_ok_iff {index : Nat} {e : Expr} {row : ValuesRow} :
    rowOfExpr index e = .ok row ↔ e.IsRow row := by
  have hpairs : ∀ pairs, rowOfPairs index .empty pairs = .ok row ↔
      PairsRelated (fun _ => Gives IsScalar) pairs row.entries := by
    intro pairs
    rw [rowOfPairs_eq_ok_iff]
    exact ⟨fun ⟨entries, hrelated, hrow⟩ => hrow ▸ hrelated, fun h => ⟨_, h, rfl⟩⟩
  constructor
  · intro h
    unfold rowOfExpr at h
    split at h
    · exact ⟨_, .keyword _, (hpairs _).mp h⟩
    · exact ⟨_, .map _, (hpairs _).mp h⟩
    · cases h
  · rintro ⟨pairs, he, hrelated⟩
    cases he <;> exact (hpairs pairs).mpr hrelated

theorem rowsOfItems_eq_ok_iff {index : Nat} {items : List Expr} {rows : List ValuesRow} :
    rowsOfItems index items = .ok rows ↔ List.Forall₂ IsRow items rows := by
  induction items generalizing index rows with
  | nil => simp [rowsOfItems, eq_comm]
  | cons e rest ih =>
    simp only [rowsOfItems, bind_eq_ok, pure_eq_ok, rowOfExpr_eq_ok_iff, ih,
      List.forall₂_cons_left_iff]
    constructor
    · rintro ⟨row, hrow, rows, hrows, rfl⟩
      exact ⟨row, rows, hrow, hrows, rfl⟩
    · rintro ⟨row, rows, hrow, hrows, rfl⟩
      exact ⟨row, hrow, rows, hrows, rfl⟩

theorem rowsOfExpr_eq_ok_iff {e : Expr} {rows : List ValuesRow} :
    rowsOfExpr e = .ok rows ↔ e.IsRows rows := by
  constructor
  · intro h
    unfold rowsOfExpr at h
    split at h
    · exact ⟨_, rfl, rowsOfItems_eq_ok_iff.mp h⟩
    · cases h
  · rintro ⟨items, rfl, hrows⟩
    exact rowsOfItems_eq_ok_iff.mpr hrows

theorem columnType_eq_ok_iff {field name : String} {type : ColumnType} :
    columnType field name = .ok type ↔ ColumnType.parse name = .ok type := by
  unfold columnType
  split <;> simp_all

theorem columnsOfPairs_eq_ok_iff {types : Expr} {pairs : List (String × Expr)} {columns : Columns} :
    columnsOfPairs types pairs = .ok columns ↔ PairsRelated (fun _ => IsType) pairs columns := by
  induction pairs generalizing columns with
  | nil => simp [columnsOfPairs, PairsRelated, eq_comm]
  | cons pair rest ih =>
    obtain ⟨field, e⟩ := pair
    have hnamed : ∀ name, e.IsName name →
        (columnsOfPairs types ((field, e) :: rest) = .ok columns ↔
          ∃ type, ColumnType.parse name = .ok type ∧ ∃ more,
            PairsRelated (fun _ => IsType) rest more ∧ (field, type) :: more = columns) := by
      intro name hname
      cases hname <;>
        simp only [columnsOfPairs, Expr.string, ok_bind, bind_eq_ok, pure_eq_ok,
          columnType_eq_ok_iff, ih]
    constructor
    · intro h
      have hname : ∃ name, e.IsName name := by
        unfold columnsOfPairs at h
        split at h
        · exact ⟨_, .atom _⟩
        · exact ⟨_, .string _⟩
        · cases h
      obtain ⟨name, hname⟩ := hname
      obtain ⟨type, htype, more, hmore, rfl⟩ := (hnamed name hname).mp h
      exact .cons ⟨rfl, name, hname, htype⟩ hmore
    · intro h
      cases h with
      | @cons _ column _ more hcolumn hmore =>
        obtain ⟨key, type⟩ := column
        obtain ⟨hkey, name, hname, htype⟩ := hcolumn
        subst hkey
        exact (hnamed name hname).mpr ⟨type, htype, more, hmore, rfl⟩

theorem columnsOfExpr_eq_ok_iff {types : Expr} {columns : Columns} :
    columnsOfExpr types = .ok columns ↔ types.IsColumns columns := by
  constructor
  · intro h
    unfold columnsOfExpr at h
    split at h
    · exact ⟨_, .keyword _, columnsOfPairs_eq_ok_iff.mp h⟩
    · exact ⟨_, .map _, columnsOfPairs_eq_ok_iff.mp h⟩
    · cases h
  · rintro ⟨pairs, he, hcolumns⟩
    cases he <;> exact columnsOfPairs_eq_ok_iff.mpr hcolumns

end ValuesList

/-! ## Readers of calls -/

namespace JoinSource

open StagedJoin.Expr JoinOptions

variable {ctx : SourceContext} {call : Expr} {sized : SizedSource}

theorem ofQuery_eq_ok_iff {q : Query} :
    ofQuery q = .ok sized ↔ q.joins = [] ∧ sized = ⟨.table q.base.source, some 1⟩ := by
  have hjoins : q.hasJoins = true ↔ q.joins ≠ [] := by simp [Query.hasJoins]
  rw [ofQuery]
  by_cases h : q.hasJoins = true
  · rw [if_pos h]
    exact iff_of_false (by simp) fun hq => hjoins.mp h hq.1
  · rw [if_neg h]
    rw [hjoins, not_not] at h
    exact ⟨fun hq => ⟨h, (Except.ok.inj hq).symm⟩, fun hq => congrArg _ hq.2.symm⟩

/-- The pairs that are valid for a subquery are at most a prefix. -/
theorem valid_subqueryTable_iff {pairs : List (String × Expr)} : Valid subqueryTable pairs ↔
    pairs = [] ∨ ∃ e s, pairs = [("prefix", e)] ∧ Gives IsString e s := by
  constructor
  · intro h
    have hkey : ∀ pair ∈ pairs, pair.1 = "prefix" := by
      intro pair hpair
      obtain ⟨spec, hspec, hname⟩ := h.known pair hpair
      cases List.mem_singleton.mp hspec
      exact hname.symm
    match pairs, h, hkey with
    | [], _, _ => exact .inl rfl
    | [(key, e)], h, hkey =>
      obtain rfl : key = "prefix" := hkey _ List.mem_cons_self
      obtain ⟨s, hs⟩ := h.accepted.exists_string List.mem_cons_self List.mem_cons_self
      exact .inr ⟨e, s, rfl, hs⟩
    | first :: second :: rest, h, hkey =>
      have hsame := (hkey first List.mem_cons_self).trans
        (hkey second (List.mem_cons_of_mem _ List.mem_cons_self)).symm
      have hdistinct := h.distinct
      rw [List.map_cons, List.map_cons, hsame, List.nodup_cons] at hdistinct
      exact absurd List.mem_cons_self hdistinct.1
  · rintro (rfl | ⟨e, s, rfl, hs⟩)
    · exact ⟨List.nodup_nil, fun _ hpair => (nomatch hpair), fun _ _ _ hpair => nomatch hpair⟩
    · refine ⟨by simp, ?_, ?_⟩
      · intro pair hpair
        cases List.mem_singleton.mp hpair
        exact ⟨_, List.mem_cons_self, rfl⟩
      · intro spec hspec value hvalue
        cases List.mem_singleton.mp hspec
        cases List.mem_singleton.mp hvalue
        cases hs with
        | literal h =>
          cases h
          exact .literal List.mem_cons_self (.string _)
        | deferred p => exact .interpolated rfl p

theorem subqueryOptions_iff {options : Option Expr} {tablePrefix : Option (Staged String)} :
    (∃ o, ofExpr? subqueryTable .subquery options = .ok o ∧ o.tablePrefix? = tablePrefix) ↔
      Prefixed options tablePrefix := by
  constructor
  · rintro ⟨o, ho, rfl⟩
    obtain ⟨hgiven, hvalid⟩ := ofExpr?_eq_ok_iff.mp ho
    rcases valid_subqueryTable_iff.mp hvalid with hnil | ⟨e, s, hpairs, hs⟩
    · have hnone : o.tablePrefix? = none := by
        rw [tablePrefix?, OrderedMap.get?, hnil]
        rfl
      rw [hnone]
      exact .absent (hnil ▸ hgiven)
    · have hsome : o.tablePrefix? = some s := by
        rw [tablePrefix?, OrderedMap.get?, hpairs]
        exact stagedString?_eq_some_iff.mpr hs
      rw [hsome]
      rw [hpairs] at hgiven
      cases hgiven
      exact .given hs
  · intro h
    cases h with
    | absent h =>
      exact ⟨{}, ofExpr?_eq_ok_iff.mpr ⟨h, valid_subqueryTable_iff.mpr (.inl rfl)⟩, rfl⟩
    | @given e s hs =>
      refine ⟨⟨⟨[("prefix", e)], by simp⟩⟩, ofExpr?_eq_ok_iff.mpr ?_, ?_⟩
      · exact ⟨.keyword _, valid_subqueryTable_iff.mpr (.inr ⟨e, s, rfl, hs⟩)⟩
      · exact stagedString?_eq_some_iff.mpr hs

theorem ofSubquery_eq_ok_iff {inner : Expr} {options : Option Expr} :
    ofSubquery call inner options = .ok sized ↔ ∃ query slots tablePrefix,
      inner.Queried query slots ∧ Prefixed options tablePrefix ∧
        sized = ⟨.subquery query tablePrefix, slots⟩ := by
  simp only [ofSubquery, bind_eq_ok]
  constructor
  · rintro ⟨o, ho, h⟩
    have hprefix := subqueryOptions_iff.mp ⟨o, ho, rfl⟩
    split at h
    · cases h
      exact ⟨_, _, _, .literal _, hprefix, rfl⟩
    · cases h
      exact ⟨_, _, _, .deferred _, hprefix, rfl⟩
    · cases h
  · rintro ⟨query, slots, tablePrefix, hinner, hprefix, rfl⟩
    obtain ⟨o, ho, rfl⟩ := subqueryOptions_iff.mpr hprefix
    refine ⟨o, ho, ?_⟩
    cases hinner <;> rfl

theorem ownerSlot_eq_ok_iff {e : Expr} {slot : Nat} : ownerSlot ctx e = .ok slot ↔
    ∃ name, e = .var name ∧ name ∉ ctx.vars.names ∧ ctx.scope.slot? name = some slot := by
  have hcontains : ∀ name, ctx.vars.contains name = true ↔ name ∈ ctx.vars.names :=
    fun name => List.contains_iff_mem
  constructor
  · intro h
    unfold ownerSlot at h
    split at h
    · rename_i name
      split at h
      · cases h
      · rename_i hname
        rw [hcontains] at hname
        split at h
        · rename_i hslot
          cases h
          exact ⟨name, rfl, hname, hslot⟩
        · cases h
    · cases h
  · rintro ⟨name, rfl, hname, hslot⟩
    rw [ownerSlot, if_neg ((hcontains name).not.mpr hname), hslot]

theorem associationField_eq_ok_iff {e : Expr} {field : Staged String} :
    associationField e = .ok field ↔ Gives IsName e field := by
  constructor
  · intro h
    unfold associationField at h
    split at h <;> cases h
    · exact .literal (.atom _)
    · exact .literal (.string _)
    · exact .deferred _
  · intro h
    cases h with
    | deferred p => rfl
    | literal h => cases h <;> rfl

theorem resolveAssociation_eq_ok_iff {owner : Nat} {name : Staged String}
    {resolved : Option ResolvedAssociation} :
    resolveAssociation ctx call owner name = .ok resolved ↔ Resolved ctx owner name resolved := by
  constructor
  · intro h
    unfold resolveAssociation at h
    cases hname : ctx.schema? owner with
    | none =>
      rw [hname] at h
      cases h
      exact .schema hname
    | some schemaName =>
      rw [hname] at h
      cases name with
      | deferred p =>
        cases h
        exact .field p
      | literal field =>
        dsimp only at h
        split at h
        · rename_i a ha
          cases h
          simp only [SchemaView.association?, Option.bind_eq_bind, Option.bind_eq_some_iff] at ha
          obtain ⟨schema, hschema, a, ha, related, hrelated, hresolved⟩ := ha
          cases hresolved
          exact .found hname hschema ha hrelated
        · cases h
  · intro h
    cases h with
    | field p => cases hname : ctx.schema? owner <;> simp only [resolveAssociation, hname]
    | schema h => simp only [resolveAssociation, h]
    | found hname hschema ha hrelated =>
      simp only [resolveAssociation, hname, SchemaView.association?, hschema, ha, hrelated,
        Option.bind_eq_bind, Option.bind_some, Option.pure_def]

theorem ofAssociation_eq_ok_iff {owner e : Expr} : ofAssociation ctx call owner e = .ok sized ↔
    ∃ name slot field resolved, owner = .var name ∧ name ∉ ctx.vars.names ∧
      ctx.scope.slot? name = some slot ∧ Gives IsName e field ∧ Resolved ctx slot field resolved ∧
        sized = ⟨.association ⟨slot, field, resolved⟩, some 1⟩ := by
  simp only [ofAssociation, bind_eq_ok, pure_eq_ok, ownerSlot_eq_ok_iff, associationField_eq_ok_iff,
    resolveAssociation_eq_ok_iff]
  constructor
  · rintro ⟨slot, ⟨name, rfl, hname, hslot⟩, field, hfield, resolved, hresolved, rfl⟩
    exact ⟨name, slot, field, resolved, rfl, hname, hslot, hfield, hresolved, rfl⟩
  · rintro ⟨name, slot, field, resolved, rfl, hname, hslot, hfield, hresolved, rfl⟩
    exact ⟨slot, ⟨name, rfl, hname, hslot⟩, field, hfield, resolved, hresolved, rfl⟩

/-- A part is read or deferred; no part is read from a placeholder. -/
theorem stagedPart_eq_ok_iff {α : Type} {read : Expr → Except Failure α}
    {literal : Expr → α → Prop} (hread : ∀ e a, read e = .ok a ↔ literal e a)
    (hplaceholder : ∀ p a, ¬ literal (.interpolate p) a) {e : Expr} {s : Staged α} :
    stagedPart read e = .ok s ↔ Gives literal e s := by
  constructor
  · intro h
    unfold stagedPart at h
    split at h
    · cases h
      exact .deferred _
    · obtain ⟨a, ha, hs⟩ := bind_eq_ok.mp h
      cases hs
      exact .literal ((hread _ a).mp ha)
  · intro h
    cases h with
    | deferred p => rfl
    | @literal _ a h =>
      have ha := (hread e a).mpr h
      unfold stagedPart
      split
      · rename_i p
        exact absurd h (hplaceholder p a)
      · rw [ha]
        rfl

theorem stagedRows_eq_ok_iff {e : Expr} {rows : Staged (List ValuesRow)} :
    stagedPart ValuesList.rowsOfExpr e = .ok rows ↔ Gives IsRows e rows :=
  stagedPart_eq_ok_iff (fun _ _ => ValuesList.rowsOfExpr_eq_ok_iff)
    fun _ _ ⟨_, h, _⟩ => nomatch h

theorem stagedColumns_eq_ok_iff {e : Expr} {columns : Staged Columns} :
    stagedPart ValuesList.columnsOfExpr e = .ok columns ↔ Gives IsColumns e columns :=
  stagedPart_eq_ok_iff (fun _ _ => ValuesList.columnsOfExpr_eq_ok_iff)
    fun _ _ ⟨_, h, _⟩ => nomatch h

theorem form_of_ofValues {e types : Expr} (h : ofValues call e types = .ok sized) :
    Form ctx (.call "values" [e, types]) sized := by
  obtain ⟨rows, hrows, h⟩ := bind_eq_ok.mp h
  obtain ⟨columns, hcolumns, h⟩ := bind_eq_ok.mp h
  rw [stagedRows_eq_ok_iff] at hrows
  rw [stagedColumns_eq_ok_iff] at hcolumns
  cases hrows with
  | deferred p =>
    cases h
    exact .rowsPending p hcolumns
  | literal hrows => cases hcolumns with
    | deferred p =>
      cases h
      exact .columnsPending (.literal hrows) p
    | literal hcolumns =>
      dsimp only at h
      split at h
      · rename_i list hcheck
        cases h
        exact .values hrows hcolumns hcheck
      · cases h

theorem ofValues_of_check {e types : Expr} {rows : List ValuesRow} {columns : Columns}
    {list : ValuesList} (hrows : e.IsRows rows) (hcolumns : types.IsColumns columns)
    (hcheck : ValuesList.check rows columns = .ok list) :
    ofValues call e types = .ok ⟨.values (.checked list), some 1⟩ := by
  rw [ofValues, stagedRows_eq_ok_iff.mpr (.literal hrows), ok_bind,
    stagedColumns_eq_ok_iff.mpr (.literal hcolumns), ok_bind]
  dsimp only
  rw [hcheck]
  rfl

/-- A values list is not checked before its rows and its columns are there. -/
theorem ofValues_of_pending {e types : Expr} {rows : Staged (List ValuesRow)}
    {columns : Staged Columns} (hrows : Gives IsRows e rows)
    (hcolumns : Gives IsColumns types columns)
    (hpending : ∀ rs cs, rows = .literal rs → columns ≠ .literal cs) :
    ofValues call e types = .ok ⟨.values (.pending rows columns), some 1⟩ := by
  rw [ofValues, stagedRows_eq_ok_iff.mpr hrows, ok_bind, stagedColumns_eq_ok_iff.mpr hcolumns,
    ok_bind]
  split
  · exact absurd rfl (hpending _ _ rfl)
  · rfl

/-- The reader of sources accepts what is in the grammar and nothing else, and gives it the source
and the number of slots that the grammar says. -/
theorem reads_exactly_grammar (ctx : SourceContext) (e : Expr) (sized : SizedSource) :
    ofExpr ctx e = .ok sized ↔ Form ctx e sized := by
  constructor
  · intro h
    unfold ofExpr at h
    split at h
    case h_5 q =>
      obtain ⟨hjoins, rfl⟩ := ofQuery_eq_ok_iff.mp h
      exact .query hjoins
    case h_6 function args =>
      cases ofCall_eq_ok_iff.mp h with
      | subquery h =>
        obtain ⟨query, slots, tablePrefix, hinner, hprefix, rfl⟩ := ofSubquery_eq_ok_iff.mp h
        exact .subquery hinner hprefix
      | subqueryWith h =>
        obtain ⟨query, slots, tablePrefix, hinner, hprefix, rfl⟩ := ofSubquery_eq_ok_iff.mp h
        exact .subquery hinner hprefix
      | assoc h =>
        obtain ⟨name, slot, field, resolved, rfl, hname, hslot, hfield, hresolved, rfl⟩ :=
          ofAssociation_eq_ok_iff.mp h
        exact .association hname hslot hfield hresolved
      | values h => exact form_of_ofValues h
    all_goals cases h
    · exact .table _
    · exact .schema _
    · exact .tableSchema _ _
    · exact .runtime _
  · intro h
    cases h with
    | query hjoins => exact ofQuery_eq_ok_iff.mpr ⟨hjoins, rfl⟩
    | @subquery inner options query slots tablePrefix hinner hoptions =>
      have hread : ofSubquery (.call "subquery" (inner :: options.toList)) inner options =
          .ok ⟨.subquery query tablePrefix, slots⟩ :=
        ofSubquery_eq_ok_iff.mpr ⟨query, slots, tablePrefix, hinner, hoptions, rfl⟩
      change ofCall ctx _ "subquery" (inner :: options.toList) = _
      rw [ofCall_eq_ok_iff]
      cases options with
      | none => exact .subquery hread
      | some options => exact .subqueryWith hread
    | association hname hslot hfield hresolved =>
      exact ofCall_eq_ok_iff.mpr (.assoc (ofAssociation_eq_ok_iff.mpr
        ⟨_, _, _, _, rfl, hname, hslot, hfield, hresolved, rfl⟩))
    | values hrows hcolumns hcheck =>
      exact ofCall_eq_ok_iff.mpr (.values (ofValues_of_check hrows hcolumns hcheck))
    | rowsPending p hcolumns =>
      exact ofCall_eq_ok_iff.mpr (.values (ofValues_of_pending (.deferred p) hcolumns
        fun _ _ h => nomatch h))
    | columnsPending hrows p =>
      exact ofCall_eq_ok_iff.mpr (.values (ofValues_of_pending hrows (.deferred p)
        fun _ _ _ h => nomatch h))
    | _ => rfl

end JoinSource

end StagedJoin
