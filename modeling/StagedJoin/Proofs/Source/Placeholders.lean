import StagedJoin.Proofs.Compiler.Options
import StagedJoin.Proofs.Query.Placeholders
import StagedJoin.Proofs.Source.Values

/-!
The placeholders of what is read. A source has no placeholder that its expression does
not have, and the options of a join have none that their values do not have.
-/
namespace StagedJoin

/-! ## Values lists -/

namespace ValuesList

theorem placeholders_of_check {rows : List ValuesRow} {columns : Columns} {list : ValuesList}
    (h : check rows columns = .ok list) {cell : Param} (hc : cell ∈ list.cells) {p : Placeholder}
    (hp : p ∈ cell.value.placeholders) : p ∈ rows.flatMap ValuesRow.placeholders := by
  obtain ⟨-, -, hcells⟩ := check_eq_ok h
  obtain ⟨row, hrow, column, -, hvalue, -⟩ := hcells cell hc
  have hentry := OrderedMap.mem_entries_iff.mpr hvalue
  exact List.mem_flatMap.mpr ⟨row, hrow, List.mem_flatMap.mpr ⟨_, hentry, hp⟩⟩

theorem placeholders_of_fieldValue {field : String} {index : Nat} {e : Expr} {value : Staged Value}
    (h : fieldValue field index e = .ok value) {p : Placeholder} (hp : p ∈ value.placeholders) :
    p ∈ e.placeholders := by
  unfold fieldValue at h
  split at h <;> cases h
  · cases hp
  · cases hp
  · exact hp

theorem placeholders_of_rowOfPairs {index : Nat} {before row : ValuesRow}
    {pairs : List (String × Expr)} (h : rowOfPairs index before pairs = .ok row) {p : Placeholder}
    (hp : p ∈ row.placeholders) : p ∈ before.placeholders ∨ p ∈ Expr.pairPlaceholders pairs := by
  induction pairs generalizing before with
  | nil =>
    cases h
    exact .inl hp
  | cons pair rest ih =>
    obtain ⟨field, e⟩ := pair
    rw [rowOfPairs] at h
    split at h
    · cases h
    · rename_i value hvalue
      split at h
      · cases h
      · rw [Expr.pairPlaceholders, List.mem_append]
        rcases ih h with hbefore | hrest
        · obtain ⟨⟨key, v⟩, hentry, hv⟩ := List.mem_flatMap.mp hbefore
          rw [OrderedMap.mem_entries_iff, OrderedMap.get?_insert] at hentry
          split at hentry
          · cases hentry
            exact .inr (.inl (placeholders_of_fieldValue hvalue hv))
          · have hold := OrderedMap.mem_entries_iff.mpr hentry
            exact .inl (List.mem_flatMap.mpr ⟨_, hold, hv⟩)
        · exact .inr (.inr hrest)

theorem placeholders_of_rowOfExpr {index : Nat} {e : Expr} {row : ValuesRow}
    (h : rowOfExpr index e = .ok row) {p : Placeholder} (hp : p ∈ row.placeholders) :
    p ∈ e.placeholders := by
  cases e with
  | keyword pairs => exact (placeholders_of_rowOfPairs h hp).resolve_left fun hm => nomatch hm
  | map pairs => exact (placeholders_of_rowOfPairs h hp).resolve_left fun hm => nomatch hm
  | _ => cases h

theorem placeholders_of_rowsOfItems {index : Nat} {items : List Expr} {rows : List ValuesRow}
    (h : rowsOfItems index items = .ok rows) {p : Placeholder}
    (hp : p ∈ rows.flatMap ValuesRow.placeholders) : p ∈ Expr.itemPlaceholders items := by
  induction items generalizing index rows with
  | nil =>
    cases h
    cases hp
  | cons e rest ih =>
    obtain ⟨row, hrow, h⟩ := bind_eq_ok.mp h
    obtain ⟨more, hmore, h⟩ := bind_eq_ok.mp h
    cases h
    rw [Expr.itemPlaceholders, List.mem_append]
    rw [List.flatMap_cons, List.mem_append] at hp
    exact hp.imp (placeholders_of_rowOfExpr hrow) (ih hmore)

theorem placeholders_of_rowsOfExpr {e : Expr} {rows : List ValuesRow}
    (h : rowsOfExpr e = .ok rows) {p : Placeholder}
    (hp : p ∈ rows.flatMap ValuesRow.placeholders) : p ∈ e.placeholders := by
  unfold rowsOfExpr at h
  split at h
  · exact placeholders_of_rowsOfItems h hp
  · cases h

end ValuesList

/-! ## Options -/

namespace Expr

variable {e : Expr}

theorem placeholders_of_stagedString? {part : Staged String} (h : e.stagedString? = some part) :
    ∀ p ∈ part.placeholders, p ∈ e.placeholders := by
  unfold stagedString? at h
  split at h <;> cases h
  · exact fun p hp => nomatch hp
  · exact fun p hp => hp

theorem placeholders_of_stagedAtom? {part : Staged String} (h : e.stagedAtom? = some part) :
    ∀ p ∈ part.placeholders, p ∈ e.placeholders := by
  unfold stagedAtom? at h
  split at h <;> cases h
  · exact fun p hp => nomatch hp
  · exact fun p hp => hp

theorem placeholders_of_stagedStrings? {part : Staged (List String)}
    (h : e.stagedStrings? = some part) : ∀ p ∈ part.placeholders, p ∈ e.placeholders := by
  unfold stagedStrings? at h
  split at h <;> cases h
  · exact fun p hp => nomatch hp
  · exact fun p hp => nomatch hp
  · exact fun p hp => hp

theorem placeholders_of_stagedValue? {part : Staged Value} (h : e.stagedValue? = some part) :
    ∀ p ∈ part.placeholders, p ∈ e.placeholders := by
  unfold stagedValue? at h
  split at h
  · cases h
    exact fun p hp => nomatch hp
  · cases h
    exact fun p hp => nomatch hp
  · cases h
    exact fun p hp => hp
  · obtain ⟨literals, -, hpart⟩ := Option.map_eq_some_iff.mp h
    cases hpart
    exact fun p hp => nomatch hp
  · cases h

end Expr

namespace JoinOptions

variable {o : JoinOptions} {p : Placeholder}

/-- A part that is read from the value of an option has the placeholders of the value. -/
theorem exists_entry_of_get? {α : Type} {key : String} {read : Expr → Option (Staged α)}
    (hread : ∀ e part, read e = some part → ∀ p ∈ part.placeholders, p ∈ e.placeholders)
    (h : p ∈ Staged.placeholders? ((o.entries.get? key).bind read)) :
    ∃ e, (key, e) ∈ o.entries.entries ∧ p ∈ e.placeholders := by
  cases hget : o.entries.get? key with
  | none =>
    rw [hget] at h
    cases h
  | some e =>
    rw [hget, Option.bind_some] at h
    cases hpart : read e with
    | none =>
      rw [hpart] at h
      cases h
    | some part =>
      rw [hpart] at h
      exact ⟨e, OrderedMap.mem_entries_iff.mpr hget, hread e part hpart p h⟩

theorem exists_entry_of_alias? (h : p ∈ Staged.placeholders? o.alias?) :
    ∃ e, ("as", e) ∈ o.entries.entries ∧ p ∈ e.placeholders :=
  exists_entry_of_get? (fun _ _ => Expr.placeholders_of_stagedAtom?) h

theorem exists_entry_of_tablePrefix? (h : p ∈ Staged.placeholders? o.tablePrefix?) :
    ∃ e, ("prefix", e) ∈ o.entries.entries ∧ p ∈ e.placeholders :=
  exists_entry_of_get? (fun _ _ => Expr.placeholders_of_stagedString?) h

theorem exists_entry_of_hints? (h : p ∈ Staged.placeholders? o.hints?) :
    ∃ e, ("hints", e) ∈ o.entries.entries ∧ p ∈ e.placeholders :=
  exists_entry_of_get? (fun _ _ => Expr.placeholders_of_stagedStrings?) h

theorem exists_entry_of_extensions
    (h : p ∈ o.extensions.entries.flatMap fun e => e.2.placeholders) :
    ∃ e ∈ o.entries.entries, e.1 ∉ coreNames ∧ p ∈ e.2.placeholders := by
  obtain ⟨⟨key, value⟩, hentry, hp⟩ := List.mem_flatMap.mp h
  have hlist : ∀ es : List (String × Expr), (key, value) ∈ OrderedMap.filterMapList
      (fun key value => if coreNames.contains key then none else value.stagedValue?) es →
      ∃ e ∈ es, e.1 ∉ coreNames ∧ e.2.stagedValue? = some value := by
    intro es
    induction es with
    | nil => exact fun hm => nomatch hm
    | cons e rest ih =>
      intro hm
      rw [OrderedMap.filterMapList] at hm
      split at hm
      · rename_i w hw
        rcases List.mem_cons.mp hm with he | hm
        · cases he
          split at hw
          · cases hw
          · rename_i hcore
            exact ⟨e, List.mem_cons_self, by simpa using hcore, hw⟩
        · obtain ⟨e', he', h'⟩ := ih hm
          exact ⟨e', List.mem_cons_of_mem _ he', h'⟩
      · obtain ⟨e', he', h'⟩ := ih hm
        exact ⟨e', List.mem_cons_of_mem _ he', h'⟩
  obtain ⟨e, he, hcore, hvalue⟩ := hlist _ hentry
  refine ⟨e, he, hcore, ?_⟩
  exact Expr.placeholders_of_stagedValue? hvalue p hp

end JoinOptions

/-! ## Sources -/

namespace JoinSource

variable {ctx : SourceContext} {call e : Expr} {sized : SizedSource} {p : Placeholder}

theorem placeholders_of_stagedPart {α : Type} {read : Expr → Except Failure α} {part : Staged α}
    (h : stagedPart read e = .ok part) (hp : p ∈ part.placeholders) : p ∈ e.placeholders := by
  unfold stagedPart at h
  split at h
  · cases h
    exact hp
  · obtain ⟨a, -, h⟩ := bind_eq_ok.mp h
    cases h
    cases hp

theorem placeholders_of_ofSubquery {inner : Expr} {options : Option Expr}
    (h : ofSubquery call inner options = .ok sized) (hp : p ∈ sized.source.placeholders) :
    p ∈ inner.placeholders ∨ p ∈ options.elim [] Expr.placeholders := by
  obtain ⟨o, ho, h⟩ := bind_eq_ok.mp h
  have hprefix : p ∈ Staged.placeholders? o.tablePrefix? →
      p ∈ options.elim [] Expr.placeholders := by
    intro hm
    obtain ⟨value, hentry, hvalue⟩ := JoinOptions.exists_entry_of_tablePrefix? hm
    have hget := OrderedMap.mem_entries_iff.mp hentry
    obtain ⟨pairs, rfl, hpair⟩ := (JoinOptions.get?_eq_some_iff ho).mp hget
    rw [Option.elim, Expr.placeholders, Expr.pairPlaceholders_eq_flatMap]
    exact List.mem_flatMap.mpr ⟨_, hpair, hvalue⟩
  split at h
  · cases h
    exact (List.mem_append.mp hp).imp id hprefix
  · cases h
    exact (List.mem_append.mp hp).imp id hprefix
  · cases h

theorem placeholders_of_ofAssociation {owner field : Expr}
    (h : ofAssociation ctx call owner field = .ok sized) (hp : p ∈ sized.source.placeholders) :
    p ∈ field.placeholders := by
  obtain ⟨slot, -, h⟩ := bind_eq_ok.mp h
  obtain ⟨name, hname, h⟩ := bind_eq_ok.mp h
  obtain ⟨resolved, -, h⟩ := bind_eq_ok.mp h
  cases h
  unfold associationField at hname
  split at hname <;> cases hname
  · cases hp
  · cases hp
  · exact hp

theorem placeholders_of_ofValues {rows types : Expr} (h : ofValues call rows types = .ok sized)
    (hp : p ∈ sized.source.placeholders) : p ∈ rows.placeholders ∨ p ∈ types.placeholders := by
  obtain ⟨rs, hrows, h⟩ := bind_eq_ok.mp h
  obtain ⟨cs, htypes, h⟩ := bind_eq_ok.mp h
  have hread : ∀ given, rs = .literal given → p ∈ given.flatMap ValuesRow.placeholders →
      p ∈ rows.placeholders := by
    rintro given rfl hm
    unfold stagedPart at hrows
    split at hrows
    · cases hrows
    · obtain ⟨a, ha, he⟩ := bind_eq_ok.mp hrows
      cases he
      exact ValuesList.placeholders_of_rowsOfExpr ha hm
  split at h
  · split at h
    · rename_i list hcheck
      cases h
      obtain ⟨cell, hcell, hm⟩ := List.mem_flatMap.mp hp
      exact .inl (hread _ rfl (ValuesList.placeholders_of_check hcheck hcell hm))
    · cases h
  · cases h
    cases rs with
    | literal given =>
      refine (List.mem_append.mp hp).imp (hread given rfl) fun hm => ?_
      exact placeholders_of_stagedPart htypes hm
    | deferred placeholder =>
      rcases List.mem_cons.mp hp with rfl | hm
      · exact .inl (placeholders_of_stagedPart hrows List.mem_cons_self)
      · exact .inr (placeholders_of_stagedPart htypes hm)

/-- A source has no placeholder that its expression does not have. -/
theorem placeholders_of_ofExpr (h : ofExpr ctx e = .ok sized)
    (hp : p ∈ sized.source.placeholders) : p ∈ e.placeholders := by
  unfold ofExpr at h
  split at h
  case h_4 =>
    cases h
    exact hp
  case h_5 =>
    unfold ofQuery at h
    split at h <;> cases h
    cases hp
  case h_6 function args =>
    cases ofCall_eq_ok_iff.mp h with
    | subquery h =>
      simpa [Expr.placeholders, Expr.itemPlaceholders] using placeholders_of_ofSubquery h hp
    | subqueryWith h =>
      simpa [Expr.placeholders, Expr.itemPlaceholders] using placeholders_of_ofSubquery h hp
    | assoc h =>
      simpa [Expr.placeholders, Expr.itemPlaceholders] using
        Or.inr (placeholders_of_ofAssociation h hp)
    | values h =>
      simpa [Expr.placeholders, Expr.itemPlaceholders] using placeholders_of_ofValues h hp
  all_goals
    cases h
    try cases hp

end JoinSource

theorem JoinVars.placeholders_of_splitTarget {target source : Expr} {vars : JoinVars}
    (h : splitTarget target = .ok (vars, source)) {p : Placeholder} (hp : p ∈ source.placeholders) :
    p ∈ target.placeholders := by
  unfold splitTarget at h
  split at h
  · split at h <;> cases h
    exact List.mem_append_right _ hp
  · cases h
    exact hp

end StagedJoin
