import StagedJoin.Condition.Lowering
import StagedJoin.Proofs.Condition.Shift

/-!
What clauses and terms mean. Both are read in rows, one for each slot, under any
interpretation of fields and operators in which the literal `true` is neutral for
`and`. The variables of an expression are read as slots and its interpolations as
values; a term has slots and numbered values of its own. A move reads a term in the
rows of the moved slots, and tags have no part in what it means.
-/
namespace StagedJoin

universe u v

/-- A reading of values, of fields of a row and of operators. -/
structure Interpretation (Row : Type u) (D : Type v) where
  value : Value → D
  field : Row → String → D
  binary : Operator → D → D → D
  not : D → D
  isNil : D → D
  list : List D → D
  true_and : ∀ d, binary .and (value (.boolean true)) d = d
  and_true : ∀ d, binary .and d (value (.boolean true)) = d

/-- What an expression is read with: rows by slot, slots by variable, values by placeholder. -/
structure Setting (Row : Type u) where
  rows : Nat → Row
  slot? : String → Option Nat
  value? : Placeholder → Option Value

variable {Row : Type u} {D : Type v}

/-! ## Meanings -/

namespace Interpretation

variable (I : Interpretation Row D)

def truth : D := I.value (.boolean true)

/-- An operator on two meanings, if both are there. -/
def binary? (op : Operator) (left right : Option D) : Option D :=
  left.bind fun l => right.map (I.binary op l)

theorem truth_and? (d? : Option D) : I.binary? .and (some I.truth) d? = d? := by
  cases d? with
  | none => rfl
  | some d => exact congrArg some (I.true_and d)

/-- `name == value` on a row. -/
def equation? (row : Row) (name : String) (value? : Option D) : Option D :=
  I.binary? .eq (some (I.field row name)) value?

end Interpretation

namespace Expr

mutual

/-- The meaning of an expression, if it has one; a type that is named does not matter. -/
def meaning? (I : Interpretation Row D) (s : Setting Row) : Expr → Option D
  | .literal l => some (I.value l.value)
  | .atom name => some (I.value (.atom name))
  | .field owner name => (s.slot? owner).map fun slot => I.field (s.rows slot) name
  | .interpolate p => (s.value? p).map I.value
  | .binary op left right => I.binary? op (left.meaning? I s) (right.meaning? I s)
  | .not e => (e.meaning? I s).map I.not
  | .list items => (itemMeanings? I s items).map I.list
  | .call function [e] => if function = "is_nil" then (e.meaning? I s).map I.isNil else none
  | .call function [e, _] => if function = "type" then e.meaning? I s else none
  | _ => none

def itemMeanings? (I : Interpretation Row D) (s : Setting Row) : List Expr → Option (List D)
  | [] => some []
  | e :: rest => (e.meaning? I s).bind fun d => (itemMeanings? I s rest).map (d :: ·)

end

/-- A keyword list is a conjunction of equations on the fields of a slot, in order. -/
def keywordMeaning? (I : Interpretation Row D) (s : Setting Row) (slot : Nat)
    (pairs : List (String × Expr)) : Option D :=
  pairs.foldl (fun before p =>
    I.binary? .and before (I.equation? (s.rows slot) p.1 (p.2.meaning? I s))) (some I.truth)

/-- The meaning of the `on` option of a join whose first slot is `slot`. -/
def onMeaning? (I : Interpretation Row D) (s : Setting Row) (slot : Nat) : Option Expr → Option D
  | none => some I.truth
  | some (.keyword pairs) => keywordMeaning? I s slot pairs
  | some (.list []) => some I.truth
  | some e => e.meaning? I s

end Expr

namespace Term

mutual

/-- The meaning of a term, where `.param i` is value number `i`; tags do not matter. -/
def meaning? (I : Interpretation Row D) (rows : Nat → Row) (values : List Value) :
    Term → Option D
  | .literal value => some (I.value value)
  | .field slot name => some (I.field (rows slot) name)
  | .param index => values[index]?.map I.value
  | .typed term _ => term.meaning? I rows values
  | .binary op left right => I.binary? op (left.meaning? I rows values) (right.meaning? I rows values)
  | .not term => (term.meaning? I rows values).map I.not
  | .isNil term => (term.meaning? I rows values).map I.isNil
  | .list items => (itemMeanings? I rows values items).map I.list

def itemMeanings? (I : Interpretation Row D) (rows : Nat → Row) (values : List Value) :
    List Term → Option (List D)
  | [] => some []
  | t :: rest =>
    (t.meaning? I rows values).bind fun d => (itemMeanings? I rows values rest).map (d :: ·)

end

mutual

/-- The numbers of the parameters, from left to right. -/
def paramIndices : Term → List Nat
  | .literal _ => []
  | .field _ _ => []
  | .param index => [index]
  | .typed term _ => term.paramIndices
  | .binary _ left right => left.paramIndices ++ right.paramIndices
  | .not term => term.paramIndices
  | .isNil term => term.paramIndices
  | .list items => itemParamIndices items

def itemParamIndices : List Term → List Nat
  | [] => []
  | t :: rest => t.paramIndices ++ itemParamIndices rest

end

theorem itemParamIndices_eq_flatMap (items : List Term) :
    itemParamIndices items = items.flatMap paramIndices := by
  induction items with
  | nil => rfl
  | cons t rest ih => rw [itemParamIndices, ih, List.flatMap_cons]

variable {I : Interpretation Row D} {rows rows' : Nat → Row} {values values' : List Value}

theorem itemMeanings?_map {f : Term → Term} {items : List Term}
    (h : ∀ t ∈ items, (f t).meaning? I rows values = t.meaning? I rows' values') :
    itemMeanings? I rows values (items.map f) = itemMeanings? I rows' values' items := by
  induction items with
  | nil => rfl
  | cons t rest ih =>
    rw [List.map_cons, itemMeanings?, itemMeanings?, h t List.mem_cons_self,
      ih fun u hu => h u (List.mem_cons_of_mem _ hu)]

/-- A renamed term is read in the rows of the renamed slots, and with the values that its
parameters have under their new numbers; its tags have no part in it. -/
theorem meaning?_rename_values (slot : Nat → Nat) (tag : TypeTag → TypeTag) {param : Nat → Nat}
    (t : Term) (h : ∀ i ∈ t.paramIndices, values[param i]? = values'[i]?) :
    (t.rename slot param tag).meaning? I rows values = t.meaning? I (rows ∘ slot) values' := by
  induction t with
  | literal value => rfl
  | field slot name => rfl
  | param index =>
    rw [rename, meaning?, meaning?, h index List.mem_cons_self]
  | typed term tag ih => simp only [rename, meaning?, ih h]
  | binary op left right ihl ihr =>
    have hboth := List.forall_mem_append.mp h
    simp only [rename, meaning?, ihl hboth.1, ihr hboth.2]
  | not term ih => simp only [rename, meaning?, ih h]
  | isNil term ih => simp only [rename, meaning?, ih h]
  | list items ih =>
    have hitems : ∀ t ∈ items, (t.rename slot param tag).meaning? I rows values =
        t.meaning? I (rows ∘ slot) values' := by
      intro t ht
      apply ih t ht
      intro i hi
      apply h i
      rw [paramIndices, itemParamIndices_eq_flatMap]
      exact List.mem_flatMap.mpr ⟨t, ht, hi⟩
    simp only [rename, meaning?, renameItems_eq_map, itemMeanings?_map hitems]

theorem meaning?_rename (slot : Nat → Nat) (tag : TypeTag → TypeTag) (t : Term) :
    (t.rename slot id tag).meaning? I rows values = t.meaning? I (rows ∘ slot) values :=
  meaning?_rename_values slot tag t fun _ _ => rfl

/-- With a value for each of its parameters a term has a meaning. -/
theorem exists_meaning? (t : Term) (h : ∀ i ∈ t.paramIndices, i < values.length) :
    ∃ d, t.meaning? I rows values = some d := by
  induction t with
  | literal value => exact ⟨_, rfl⟩
  | field slot name => exact ⟨_, rfl⟩
  | param index =>
    have hindex := h index List.mem_cons_self
    exact ⟨I.value values[index], by simp [meaning?, hindex]⟩
  | typed term tag ih => exact ih h
  | binary op left right ihl ihr =>
    have hboth := List.forall_mem_append.mp h
    obtain ⟨d, hd⟩ := ihl hboth.1
    obtain ⟨e, he⟩ := ihr hboth.2
    exact ⟨I.binary op d e, by rw [meaning?, hd, he]; rfl⟩
  | not term ih =>
    obtain ⟨d, hd⟩ := ih h
    exact ⟨I.not d, by rw [meaning?, hd]; rfl⟩
  | isNil term ih =>
    obtain ⟨d, hd⟩ := ih h
    exact ⟨I.isNil d, by rw [meaning?, hd]; rfl⟩
  | list items ih =>
    rw [paramIndices, itemParamIndices_eq_flatMap] at h
    have hitems : ∃ ds, itemMeanings? I rows values items = some ds := by
      induction items with
      | nil => exact ⟨[], rfl⟩
      | cons t rest ihr =>
        rw [List.flatMap_cons] at h
        have hboth := List.forall_mem_append.mp h
        obtain ⟨d, hd⟩ := ih t List.mem_cons_self hboth.1
        obtain ⟨ds, hds⟩ := ihr (fun u hu => ih u (List.mem_cons_of_mem _ hu)) hboth.2
        exact ⟨d :: ds, by rw [itemMeanings?, hd, hds]; rfl⟩
    obtain ⟨ds, hds⟩ := hitems
    exact ⟨I.list ds, by rw [meaning?, hds]; rfl⟩

theorem meaning?_mapTags (f : TypeTag → TypeTag) (t : Term) :
    (t.mapTags f).meaning? I rows values = t.meaning? I rows values := by
  rw [mapTags_eq_rename, meaning?_rename, Function.comp_id]

theorem meaning?_shift (offset : Nat) (t : Term) :
    (t.shift offset).meaning? I rows values = t.meaning? I (rows ∘ shiftSlot offset) values := by
  rw [shift_eq_rename, meaning?_rename]

theorem paramIndices_rename (slot param : Nat → Nat) (tag : TypeTag → TypeTag) (t : Term) :
    (t.rename slot param tag).paramIndices = t.paramIndices.map param := by
  induction t with
  | literal value => rfl
  | field slot name => rfl
  | param index => rfl
  | typed term tag ih => simp only [rename, paramIndices, ih]
  | binary op left right ihl ihr => simp only [rename, paramIndices, ihl, ihr, List.map_append]
  | not term ih => simp only [rename, paramIndices, ih]
  | isNil term ih => simp only [rename, paramIndices, ih]
  | list items ih =>
    simp only [rename, paramIndices, renameItems_eq_map, itemParamIndices_eq_flatMap,
      List.flatMap_map, List.map_flatMap]
    exact List.flatMap_congr ih

theorem paramIndices_mapTags (f : TypeTag → TypeTag) (t : Term) :
    (t.mapTags f).paramIndices = t.paramIndices := by
  rw [mapTags_eq_rename, paramIndices_rename, List.map_id]

theorem paramIndices_shift (offset : Nat) (t : Term) :
    (t.shift offset).paramIndices = t.paramIndices := by
  rw [shift_eq_rename, paramIndices_rename, List.map_id]

end Term

end StagedJoin
