import StagedJoin.Diagnostic
import StagedJoin.Qualifier

/-!
Why a join cannot be built or bound. Each cause keeps the text that it is about;
how a cause is worded is decided in one place.
-/
namespace StagedJoin

inductive BindingFault where
  | notAList (got : String)
  | notAVariable (got : String)
  | boundTwice (name : String)
  | tooManyPositional (given available : Nat)
  | unknownNamed (name : String)
  | repeatedEllipsis
  | alreadyBound (name : String)
  | notAJoinBinding (got : String)
  | arityMismatch (expected given : Nat)
  deriving DecidableEq, Repr

inductive QualifierFault where
  | unknown (got : String)
  | notCompileTime (got : String)
  | unsupported (qualifier : Qualifier) (supported : List Qualifier)
  deriving DecidableEq, Repr

inductive AssociationFault where
  | variable (name : String)
  | notAnAtom (got : String)
  | ownerNotBound (got : String)
  | selfReference (name : String)
  deriving DecidableEq, Repr

inductive ValuesFault where
  | empty
  | undeclaredType (field : String)
  | missingField (field : String) (row : Nat) (rowText : String)
  | duplicateField (field : String) (row : Nat)
  | unknownType (field typeName : String)
  | notARow (row : Nat) (got : String)
  | malformedTypes (got : String)
  | unsupportedValue (field : String) (row : Nat) (got : String)
  deriving DecidableEq, Repr

/-- Where a list of options is given. -/
inductive OptionContext where
  | join
  | subquery
  deriving DecidableEq, Repr

def OptionContext.name : OptionContext → String
  | .join => "join"
  | .subquery => "subquery"

inductive OptionsFault where
  | notKeyword
  | repeatedKey (key : String)
  deriving DecidableEq, Repr

inductive ExpressionFault where
  | unboundVariable (name : String)
  | unsupported (got reason : String)
  | unknownType (typeName : String)
  deriving DecidableEq, Repr

inductive ConfigFault where
  | unreadable
  | reservedOption (name : String)
  | repeatedOption (name : String)
  deriving DecidableEq, Repr

/-- Breaks of the slot layout, which well formed queries never show. -/
inductive LayoutFault where
  | appendedAt (slot slots : Nat)
  | boundAt (slot slots : Nat)
  | pastLastSlot (slot last : Nat)
  | untypedCell
  | nestedTooDeep
  deriving DecidableEq, Repr

/-- A cause, with the text pointed at where the cause does not name it. -/
inductive Failure where
  | binding (fault : BindingFault) (site : String)
  | qualifier (fault : QualifierFault) (site : String)
  | unknownOption (key : String) (context : OptionContext)
  | optionValue (option expected got : String)
  | options (fault : OptionsFault) (context : OptionContext) (site : String)
  | association (fault : AssociationFault) (site : String)
  | onClause (reason : String) (site : String)
  | values (fault : ValuesFault) (site : String)
  | sourceValue (got reason : String)
  | duplicateAlias (name : String) (site : String)
  | associationNotFound (owner field : String) (site : String)
  | missingParameter (placeholder : String)
  | parameterType (value expected : String) (site : String)
  | source (got : String)
  | expression (fault : ExpressionFault) (site : String)
  | config (fault : ConfigFault)
  | layout (fault : LayoutFault)
  /-- Handed on from a compiler of conditions that is not part of the library. -/
  | reported (diagnostic : Diagnostic)
  deriving DecidableEq, Repr

end StagedJoin
