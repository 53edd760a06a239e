import StagedJoin.Proofs.Failures
import StagedJoin.Proofs.Source.Values
import StagedJoin.Source

/-!
Failures of options and of sources. All of them are ordinary, and every cell of a
values list that is known with its join has the type of its column.
-/
namespace StagedJoin

/-! ## Options -/

namespace JoinOptions

theorem orderly_checkValues (entries : OrderedMap Expr) (table : List OptionSpec) :
    Orderly (checkValues entries table) := by
  induction table with
  | nil => trivial
  | cons spec rest ih =>
    have hcheck : Orderly ((entries.get? spec.name).elim (.ok ()) spec.check) := by
      cases entries.get? spec.name with
      | none => trivial
      | some value =>
        unfold OptionSpec.check
        dsimp only [Option.elim]
        split <;> trivial
    rw [checkValues]
    split
    · rename_i failure h
      exact hcheck.ordinary h
    · exact ih

theorem orderly_ofExpr? (table : List OptionSpec) (context : OptionContext) (options : Option Expr) :
    Orderly (ofExpr? table context options) := by
  unfold ofExpr?
  split
  · trivial
  · split
    · trivial
    · unfold ofPairs
      split
      · trivial
      · split
        · trivial
        · split
          · rename_i h
            exact (orderly_checkValues _ table).ordinary h
          · trivial

end JoinOptions

/-! ## Values lists -/

/-- Every cell has the type of its column. -/
def ValuesList.Typed (list : ValuesList) : Prop := ∀ cell ∈ list.cells, ∃ t, cell.tag = .type t

namespace ValuesList

/-- A values list that passes its check is typed. -/
theorem typed_of_check {rows : List ValuesRow} {columns : Columns} {list : ValuesList}
    (h : check rows columns = .ok list) : list.Typed := by
  intro cell hcell
  obtain ⟨row, -, column, -, -, htag⟩ := (check_eq_ok h).2.2 cell hcell
  exact ⟨column.2, htag⟩

theorem orderly_columnType (field typeName : String) : Orderly (columnType field typeName) := by
  unfold columnType
  split <;> trivial

theorem orderly_fieldValue (field : String) (row : Nat) (e : Expr) :
    Orderly (fieldValue field row e) := by
  unfold fieldValue
  split <;> trivial

theorem orderly_rowOfPairs (index : Nat) (before : ValuesRow) (pairs : List (String × Expr)) :
    Orderly (rowOfPairs index before pairs) := by
  induction pairs generalizing before with
  | nil => trivial
  | cons p rest ih =>
    obtain ⟨field, e⟩ := p
    rw [rowOfPairs]
    split
    · rename_i h
      exact (orderly_fieldValue field index e).ordinary h
    · split
      · trivial
      · exact ih _

theorem orderly_rowOfExpr (index : Nat) (e : Expr) : Orderly (rowOfExpr index e) := by
  unfold rowOfExpr
  split
  · exact orderly_rowOfPairs index .empty _
  · exact orderly_rowOfPairs index .empty _
  · trivial

theorem orderly_rowsOfItems (index : Nat) (items : List Expr) :
    Orderly (rowsOfItems index items) := by
  induction items generalizing index with
  | nil => trivial
  | cons e rest ih =>
    rw [rowsOfItems]
    refine (orderly_rowOfExpr index e).bind fun row _ _ => ?_
    exact (ih (index + 1)).bind fun rows _ _ => trivial

theorem orderly_rowsOfExpr (e : Expr) : Orderly (rowsOfExpr e) := by
  unfold rowsOfExpr
  split
  · exact orderly_rowsOfItems 0 _
  · trivial

theorem orderly_columnsOfPairs (types : Expr) (pairs : List (String × Expr)) :
    Orderly (columnsOfPairs types pairs) := by
  induction pairs with
  | nil => trivial
  | cons p rest ih =>
    obtain ⟨field, e⟩ := p
    have hrest : ∀ name, Orderly (do
        let type ← columnType field name
        return (field, type) :: (← columnsOfPairs types rest)) := by
      intro name
      refine (orderly_columnType field name).bind fun type _ _ => ?_
      exact ih.bind fun columns _ _ => trivial
    unfold columnsOfPairs
    split
    · exact hrest _
    · exact hrest _
    · trivial

theorem orderly_columnsOfExpr (types : Expr) : Orderly (columnsOfExpr types) := by
  unfold columnsOfExpr
  split
  · exact orderly_columnsOfPairs _ _
  · exact orderly_columnsOfPairs _ _
  · trivial

end ValuesList

/-! ## Sources -/

namespace JoinSource

/-- A values list that is known now has been checked. -/
def ValuesTyped (source : JoinSource) : Prop :=
  ∀ list, source = .values (.checked list) → list.Typed

theorem orderly_ofQuery (q : Query) : Orderly (ofQuery q) fun s => s.source.ValuesTyped := by
  unfold ofQuery
  split
  · trivial
  · intro list h
    cases h

theorem orderly_ofSubquery (call inner : Expr) (options : Option Expr) :
    Orderly (ofSubquery call inner options) fun s => s.source.ValuesTyped := by
  unfold ofSubquery
  refine (JoinOptions.orderly_ofExpr? _ _ options).bind fun o _ _ => ?_
  split
  · intro list h
    cases h
  · intro list h
    cases h
  · trivial

theorem orderly_ownerSlot (ctx : SourceContext) (e : Expr) : Orderly (ownerSlot ctx e) := by
  unfold ownerSlot
  split
  · split
    · trivial
    · split <;> trivial
  · trivial

theorem orderly_associationField (e : Expr) : Orderly (associationField e) := by
  unfold associationField
  split <;> trivial

theorem orderly_resolveAssociation (ctx : SourceContext) (call : Expr) (owner : Nat)
    (field : Staged String) : Orderly (resolveAssociation ctx call owner field) := by
  unfold resolveAssociation
  split
  · split <;> trivial
  · trivial

theorem orderly_ofAssociation (ctx : SourceContext) (call owner field : Expr) :
    Orderly (ofAssociation ctx call owner field) fun s => s.source.ValuesTyped := by
  unfold ofAssociation
  refine (orderly_ownerSlot ctx owner).bind fun slot _ _ => ?_
  refine (orderly_associationField field).bind fun name _ _ => ?_
  refine (orderly_resolveAssociation ctx call slot name).bind fun resolved _ _ => ?_
  intro list h
  cases h

theorem orderly_stagedPart {α : Type} {read : Expr → Except Failure α}
    (h : ∀ e, Orderly (read e)) (e : Expr) : Orderly (stagedPart read e) := by
  unfold stagedPart
  split
  · trivial
  · exact (h e).bind fun a _ _ => trivial

theorem orderly_ofValues (call rows types : Expr) :
    Orderly (ofValues call rows types) fun s => s.source.ValuesTyped := by
  unfold ofValues
  refine (orderly_stagedPart ValuesList.orderly_rowsOfExpr rows).bind fun rs _ _ => ?_
  refine (orderly_stagedPart ValuesList.orderly_columnsOfExpr types).bind fun cs _ _ => ?_
  split
  · split
    · rename_i list hlist
      intro l h
      cases h
      exact ValuesList.typed_of_check hlist
    · trivial
  · intro list h
    cases h

theorem orderly_ofCall (ctx : SourceContext) (call : Expr) (function : String) (args : List Expr) :
    Orderly (ofCall ctx call function args) fun s => s.source.ValuesTyped := by
  unfold ofCall
  split
  · split
    · exact orderly_ofSubquery call _ none
    · exact orderly_ofSubquery call _ _
    · trivial
  · split
    · split
      · exact orderly_ofAssociation ctx call _ _
      · trivial
    · split
      · split
        · exact orderly_ofValues call _ _
        · trivial
      · trivial

theorem orderly_ofExpr (ctx : SourceContext) (e : Expr) :
    Orderly (ofExpr ctx e) fun s => s.source.ValuesTyped := by
  unfold ofExpr
  split
  case h_5 => exact orderly_ofQuery _
  case h_6 => exact orderly_ofCall ctx _ _ _
  case h_7 => trivial
  all_goals
    intro list h
    cases h

end JoinSource

end StagedJoin
