import StagedJoin.Expr

/-!
Arguments supplied for placeholders when a query is bound.
-/
namespace StagedJoin

/-- What can stand for the source of a join. -/
inductive Queryable where
  | table (name : String)
  | schema (name : String)
  | tableSchema (table schema : String)
  | query (q : Query)
  deriving Inhabited

def Queryable.text : Queryable → String
  | .table name => Text.quoted name
  | .schema name => name
  | .tableSchema t s => "\x7b" ++ Text.quoted t ++ ", " ++ s ++ "\x7d"
  | .query q => q.text

/-- A condition with a binding list and values of its own: `^i` in it is its value `i`. -/
structure DynamicCondition where
  binding : List Expr
  expr : Expr
  values : List Value := []
  deriving Inhabited

inductive Argument where
  | value (v : Value)
  | queryable (q : Queryable)
  | dynamic (d : DynamicCondition)
  deriving Inhabited

namespace Argument

def kind : Argument → String
  | .value v => v.kind
  | .queryable _ => "queryable"
  | .dynamic _ => "dynamic expression"

def text : Argument → String
  | .value v => v.text
  | .queryable q => q.text
  | .dynamic d => "dynamic(" ++ d.expr.text ++ ")"

end Argument

inductive Arguments where
  | none
  | positional (args : List Argument)
  | named (args : OrderedMap Argument)
  deriving Inhabited

namespace Arguments

def get? : Arguments → Placeholder → Option Argument
  | .positional args, .positional index => args[index]?
  | .named args, .named name => args.get? name
  | _, _ => Option.none

end Arguments

/-- The arguments that `^i` refers to inside a dynamic condition. -/
def DynamicCondition.arguments (d : DynamicCondition) : Arguments :=
  .positional (d.values.map .value)

end StagedJoin
