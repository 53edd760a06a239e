import StagedJoin.ColumnType
import StagedJoin.Operator
import StagedJoin.Staged

/-!
Compiled join conditions. A term speaks of fields of numbered slots and of
numbered parameters; a condition is a term with the parameters it refers to.
Slot 0 belongs to the base of a query: moving a condition to other slots leaves
references to it alone. Conditions are conjoined by putting the parameters of the
second behind those of the first, and the literal `true` is the neutral one.
-/
namespace StagedJoin

/-- The type a value is checked against when the query is bound. -/
inductive TypeTag where
  | any
  | type (t : ColumnType)
  /-- The type of a field of whatever schema ends up in the slot. -/
  | field (slot : Nat) (name : String)
  deriving DecidableEq, Repr, Inhabited

inductive Term where
  | literal (value : Value)
  | field (slot : Nat) (name : String)
  | param (index : Nat)
  | typed (term : Term) (tag : TypeTag)
  | binary (op : Operator) (left right : Term)
  | not (term : Term)
  | isNil (term : Term)
  | list (items : List Term)
  deriving Inhabited

structure Param where
  value : Staged Value
  tag : TypeTag
  deriving Inhabited

structure Condition where
  term : Term
  params : List Param := []
  deriving Inhabited

/-- Moves a slot up, the base slot apart. -/
def shiftSlot (offset slot : Nat) : Nat := if slot = 0 then 0 else slot + offset

/-- The greater of two slots, either of which may be missing. -/
def maxSlot : Option Nat → Option Nat → Option Nat
  | none, b => b
  | a, none => a
  | some a, some b => some (max a b)

namespace TypeTag

def text : TypeTag → String
  | .any => "any"
  | .type t => t.name
  | .field slot name => "typeof($" ++ toString slot ++ "." ++ name ++ ")"

def slot? : TypeTag → Option Nat
  | .field slot _ => some slot
  | _ => none

def shift (offset : Nat) : TypeTag → TypeTag
  | .field slot name => .field (shiftSlot offset slot) name
  | other => other

end TypeTag

namespace Term

mutual

def text : Term → String
  | .literal value => value.text
  | .field slot name => "$" ++ toString slot ++ "." ++ name
  | .param index => "?" ++ toString index
  | .typed term tag => "type(" ++ term.text ++ ", " ++ tag.text ++ ")"
  | .binary op left right => "(" ++ left.text ++ " " ++ op.symbol ++ " " ++ right.text ++ ")"
  | .not term => "not " ++ term.text
  | .isNil term => "is_nil(" ++ term.text ++ ")"
  | .list items => "[" ++ String.intercalate ", " (itemTexts items) ++ "]"

def itemTexts : List Term → List String
  | [] => []
  | t :: rest => t.text :: itemTexts rest

end

mutual

/-- The greatest slot that the term refers to, in a field or in a type tag. -/
def maxSlot? : Term → Option Nat
  | .literal _ => none
  | .field slot _ => some slot
  | .param _ => none
  | .typed term tag => maxSlot term.maxSlot? tag.slot?
  | .binary _ left right => maxSlot left.maxSlot? right.maxSlot?
  | .not term => term.maxSlot?
  | .isNil term => term.maxSlot?
  | .list items => maxSlotList? items

def maxSlotList? : List Term → Option Nat
  | [] => none
  | t :: rest => maxSlot t.maxSlot? (maxSlotList? rest)

end

mutual

def shift (offset : Nat) : Term → Term
  | .literal value => .literal value
  | .field slot name => .field (shiftSlot offset slot) name
  | .param index => .param index
  | .typed term tag => .typed (term.shift offset) (tag.shift offset)
  | .binary op left right => .binary op (left.shift offset) (right.shift offset)
  | .not term => .not (term.shift offset)
  | .isNil term => .isNil (term.shift offset)
  | .list items => .list (shiftList offset items)

def shiftList (offset : Nat) : List Term → List Term
  | [] => []
  | t :: rest => t.shift offset :: shiftList offset rest

end

mutual

/-- Renumbers the parameters to follow `offset` others. -/
def shiftParams (offset : Nat) : Term → Term
  | .literal value => .literal value
  | .field slot name => .field slot name
  | .param index => .param (index + offset)
  | .typed term tag => .typed (term.shiftParams offset) tag
  | .binary op left right => .binary op (left.shiftParams offset) (right.shiftParams offset)
  | .not term => .not (term.shiftParams offset)
  | .isNil term => .isNil (term.shiftParams offset)
  | .list items => .list (shiftParamsList offset items)

def shiftParamsList (offset : Nat) : List Term → List Term
  | [] => []
  | t :: rest => t.shiftParams offset :: shiftParamsList offset rest

end

mutual

/-- Replaces every type tag. -/
def mapTags (f : TypeTag → TypeTag) : Term → Term
  | .typed term tag => .typed (term.mapTags f) (f tag)
  | .binary op left right => .binary op (left.mapTags f) (right.mapTags f)
  | .not term => .not (term.mapTags f)
  | .isNil term => .isNil (term.mapTags f)
  | .list items => .list (mapTagsList f items)
  | .literal value => .literal value
  | .field slot name => .field slot name
  | .param index => .param index

def mapTagsList (f : TypeTag → TypeTag) : List Term → List Term
  | [] => []
  | t :: rest => t.mapTags f :: mapTagsList f rest

end

def eq (left right : Term) : Term := .binary .eq left right

def truth : Term := .literal (.boolean true)

def isTrue : Term → Bool
  | .literal (.boolean b) => b
  | _ => false

theorem itemTexts_eq_map (items : List Term) : itemTexts items = items.map text := by
  induction items with
  | nil => rfl
  | cons t rest ih => rw [itemTexts, ih, List.map_cons]

theorem shiftList_eq_map (offset : Nat) (items : List Term) :
    shiftList offset items = items.map (shift offset) := by
  induction items with
  | nil => rfl
  | cons t rest ih => rw [shiftList, ih, List.map_cons]

theorem shiftParamsList_eq_map (offset : Nat) (items : List Term) :
    shiftParamsList offset items = items.map (shiftParams offset) := by
  induction items with
  | nil => rfl
  | cons t rest ih => rw [shiftParamsList, ih, List.map_cons]

theorem mapTagsList_eq_map (f : TypeTag → TypeTag) (items : List Term) :
    mapTagsList f items = items.map (mapTags f) := by
  induction items with
  | nil => rfl
  | cons t rest ih => rw [mapTagsList, ih, List.map_cons]

theorem eq_truth_of_isTrue {t : Term} (h : t.isTrue = true) : t = truth := by
  unfold isTrue at h
  split at h
  · rw [h]
    rfl
  · cases h

end Term

namespace Param

def shift (offset : Nat) (p : Param) : Param := { p with tag := p.tag.shift offset }

end Param

namespace Condition

def truth : Condition := ⟨.truth, []⟩

def isTruth (c : Condition) : Bool := c.params.isEmpty && c.term.isTrue

def text (c : Condition) : String := c.term.text

/-- Both conditions; the parameters of the second follow those of the first. -/
def and (a b : Condition) : Condition :=
  if a.isTruth then b
  else if b.isTruth then a
  else ⟨.binary .and a.term (b.term.shiftParams a.params.length), a.params ++ b.params⟩

/-- The greatest slot among the type tags of the parameters. -/
def maxParamSlot? (params : List Param) : Option Nat :=
  params.foldr (fun p slot => maxSlot p.tag.slot? slot) none

def maxSlot? (c : Condition) : Option Nat := maxSlot c.term.maxSlot? (maxParamSlot? c.params)

def shift (offset : Nat) (c : Condition) : Condition :=
  ⟨c.term.shift offset, c.params.map (Param.shift offset)⟩

@[simp] theorem isTruth_truth : truth.isTruth = true := rfl

theorem eq_truth_of_isTruth {c : Condition} (h : c.isTruth = true) : c = truth := by
  obtain ⟨term, params⟩ := c
  simp only [isTruth, Bool.and_eq_true, List.isEmpty_iff] at h
  rw [h.1, Term.eq_truth_of_isTrue h.2]
  rfl

@[simp] theorem truth_and (c : Condition) : truth.and c = c := by simp [and]

@[simp] theorem and_truth (c : Condition) : c.and truth = c := by
  unfold and
  split
  · exact (eq_truth_of_isTruth ‹_›).symm
  · simp

end Condition

end StagedJoin
