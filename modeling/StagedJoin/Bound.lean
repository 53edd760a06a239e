import StagedJoin.Query

/-!
Queries with nothing left to supply.
-/
namespace StagedJoin

/-- A condition with the value of each of its parameters. -/
structure BoundCondition where
  term : Term
  params : List (Value × TypeTag)
  deriving Inhabited

mutual

inductive BoundSource where
  | table (ref : TableRef)
  | subquery (query : BoundQuery) (tablePrefix : Option String)
  | association (owner : Nat) (association : ResolvedAssociation)
  | values (columns : List (String × ColumnType)) (rowCount : Nat)
      (cells : List (Value × ColumnType))

structure BoundJoin where
  qualifier : Qualifier
  source : BoundSource
  on : BoundCondition
  aliasName : Option String
  tablePrefix : Option String
  hints : List String
  extensions : OrderedMap Value
  slot : Nat
  arity : Nat

structure BoundQuery where
  base : Base
  joins : List BoundJoin
  aliases : OrderedMap Nat

end

/-- The number of slots of all joins of a list. -/
def BoundJoin.totalArity : List BoundJoin → Nat
  | [] => 0
  | j :: rest => j.arity + totalArity rest

namespace BoundQuery

instance : Inhabited BoundQuery := ⟨{}, [], .empty⟩

/-- The number of slots. -/
def slotCount (q : BoundQuery) : Nat := 1 + BoundJoin.totalArity q.joins

end BoundQuery

mutual

/-- The schema in each slot of a source, where it has one. -/
def BoundSource.slotSchemas (arity : Nat) : BoundSource → List (Option String)
  | .table ref => resizeSchemas arity [ref.schema]
  | .subquery q _ => resizeSchemas arity q.slotSchemas
  | .association _ a => resizeSchemas arity [some a.related]
  | .values _ _ _ => resizeSchemas arity []

def BoundJoin.slotSchemas : BoundJoin → List (Option String)
  | ⟨_, source, _, _, _, _, _, _, arity⟩ => source.slotSchemas arity

def BoundQuery.joinSchemas : List BoundJoin → List (Option String)
  | [] => []
  | j :: rest => j.slotSchemas ++ BoundQuery.joinSchemas rest

/-- The schema in each slot of a query, where it has one. -/
def BoundQuery.slotSchemas : BoundQuery → List (Option String)
  | ⟨base, joins, _⟩ => base.source.schema :: BoundQuery.joinSchemas joins

end

namespace BoundQuery

theorem joinSchemas_eq_flatMap (joins : List BoundJoin) :
    joinSchemas joins = joins.flatMap BoundJoin.slotSchemas := by
  induction joins with
  | nil => rfl
  | cons j rest ih => rw [joinSchemas, ih, List.flatMap_cons]

end BoundQuery

@[simp] theorem BoundSource.length_slotSchemas (arity : Nat) (s : BoundSource) :
    (s.slotSchemas arity).length = arity := by
  cases s <;> simp [BoundSource.slotSchemas]

@[simp] theorem BoundJoin.length_slotSchemas (j : BoundJoin) : j.slotSchemas.length = j.arity := by
  cases j; simp [BoundJoin.slotSchemas]

end StagedJoin
