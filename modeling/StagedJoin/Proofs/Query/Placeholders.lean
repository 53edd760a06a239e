import StagedJoin.Proofs.Compiler.Parts

/-!
The placeholders that occur in a query, in its joins and in the queries nested inside
them, and those that occur in an expression. What is read from an expression has no
placeholder that the expression does not have.
-/
namespace StagedJoin

variable {α : Type}

def Staged.placeholders : Staged α → List Placeholder
  | .literal _ => []
  | .deferred p => [p]

/-- The placeholder of a part that may be missing. -/
def Staged.placeholders? (s : Option (Staged α)) : List Placeholder := s.elim [] placeholders

def Condition.placeholders (c : Condition) : List Placeholder :=
  c.params.flatMap fun p => p.value.placeholders

def OnClause.placeholders : OnClause → List Placeholder
  | .compiled c => c.placeholders
  | .deferred p natural => p :: natural.elim [] Condition.placeholders

def JoinAlias.placeholders : JoinAlias → List Placeholder
  | .explicit name => name.placeholders
  | _ => []

def ValuesRow.placeholders (row : ValuesRow) : List Placeholder :=
  row.entries.flatMap fun e => e.2.placeholders

def ValuesSource.placeholders : ValuesSource → List Placeholder
  | .checked list => list.cells.flatMap fun cell => cell.value.placeholders
  | .pending (.literal rows) columns => rows.flatMap ValuesRow.placeholders ++ columns.placeholders
  | .pending (.deferred p) columns => p :: columns.placeholders

mutual

def JoinSource.placeholders : JoinSource → List Placeholder
  | .table _ => []
  | .runtime p => [p]
  | .subquery query tablePrefix =>
    JoinSource.queryPlaceholders query ++ Staged.placeholders? tablePrefix
  | .association a => a.field.placeholders
  | .values source => source.placeholders

/-- The placeholders of a subquery: those inside it, or the one for it. -/
def JoinSource.queryPlaceholders : Staged Query → List Placeholder
  | .literal q => q.placeholders
  | .deferred p => [p]

def Join.placeholders : Join → List Placeholder
  | ⟨_, source, on, joinAlias, tablePrefix, hints, extensions, _, _, _⟩ =>
    source.placeholders ++ on.placeholders ++ joinAlias.placeholders ++
      Staged.placeholders? tablePrefix ++ Staged.placeholders? hints ++
      extensions.entries.flatMap fun e => e.2.placeholders

def Query.joinPlaceholders : List Join → List Placeholder
  | [] => []
  | j :: rest => j.placeholders ++ Query.joinPlaceholders rest

/-- The placeholders of a query, those of the queries inside it included. -/
def Query.placeholders : Query → List Placeholder
  | ⟨_, joins, _⟩ => Query.joinPlaceholders joins

end

theorem Join.placeholders_eq (j : Join) : j.placeholders =
    j.source.placeholders ++ j.on.placeholders ++ j.joinAlias.placeholders ++
      Staged.placeholders? j.tablePrefix ++ Staged.placeholders? j.hints ++
      j.extensions.entries.flatMap fun e => e.2.placeholders := by
  cases j
  rfl

/-- The placeholders of each part of the join are in the set. -/
structure Join.Within (A : Placeholder → Prop) (j : Join) : Prop where
  source : ∀ p ∈ j.source.placeholders, A p
  on : ∀ p ∈ j.on.placeholders, A p
  joinAlias : ∀ p ∈ j.joinAlias.placeholders, A p
  tablePrefix : ∀ p ∈ Staged.placeholders? j.tablePrefix, A p
  hints : ∀ p ∈ Staged.placeholders? j.hints, A p
  extensions : ∀ e ∈ j.extensions.entries, ∀ p ∈ e.2.placeholders, A p

theorem Join.within_of_placeholders {A : Placeholder → Prop} {j : Join}
    (h : ∀ p ∈ j.placeholders, A p) : j.Within A := by
  simp only [placeholders_eq, List.forall_mem_append] at h
  obtain ⟨⟨⟨⟨⟨hsource, hon⟩, halias⟩, hpre⟩, hhints⟩, hextensions⟩ := h
  exact ⟨hsource, hon, halias, hpre, hhints,
    fun e he p hp => hextensions p (List.mem_flatMap.mpr ⟨e, he, hp⟩)⟩

theorem Query.joinPlaceholders_eq_flatMap (js : List Join) :
    joinPlaceholders js = js.flatMap Join.placeholders := by
  induction js with
  | nil => rfl
  | cons j rest ih => rw [joinPlaceholders, ih, List.flatMap_cons]

theorem Query.mem_placeholders {q : Query} {p : Placeholder} :
    p ∈ q.placeholders ↔ ∃ j ∈ q.joins, p ∈ j.placeholders := by
  obtain ⟨base, joins, aliases⟩ := q
  rw [Query.placeholders, Query.joinPlaceholders_eq_flatMap, List.mem_flatMap]

namespace Expr

mutual

def placeholders : Expr → List Placeholder
  | .interpolate p => [p]
  | .query q => q.placeholders
  | .call _ args => itemPlaceholders args
  | .binary _ left right => left.placeholders ++ right.placeholders
  | .not e => e.placeholders
  | .keyword pairs => pairPlaceholders pairs
  | .list items => itemPlaceholders items
  | .tuple items => itemPlaceholders items
  | .map pairs => pairPlaceholders pairs
  | _ => []

def itemPlaceholders : List Expr → List Placeholder
  | [] => []
  | e :: rest => e.placeholders ++ itemPlaceholders rest

def pairPlaceholders : List (String × Expr) → List Placeholder
  | [] => []
  | (_, e) :: rest => e.placeholders ++ pairPlaceholders rest

end

theorem pairPlaceholders_eq_flatMap (pairs : List (String × Expr)) :
    pairPlaceholders pairs = pairs.flatMap fun p => p.2.placeholders := by
  induction pairs with
  | nil => rfl
  | cons p rest ih => obtain ⟨k, e⟩ := p; rw [pairPlaceholders, ih, List.flatMap_cons]

end Expr

def Invocation.placeholders (i : Invocation) : List Placeholder :=
  i.qualifier.placeholders ++ i.binding.placeholders ++ i.target.placeholders ++
    i.options.elim [] Expr.placeholders

end StagedJoin
