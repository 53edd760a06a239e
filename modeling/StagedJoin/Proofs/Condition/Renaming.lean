import Mathlib.Data.List.Basic
import StagedJoin.Proofs.Condition.Slots

/-!
Moving a term to other slots, renumbering its parameters and replacing its tags are
one traversal, with a renaming for each kind of leaf. One traversal after another is
the traversal with the renamings composed, and the one that renames nothing leaves
the term as it is; so each of the three operations passes through the others.
-/
namespace StagedJoin.Term

mutual

/-- Renames the slots of fields, the numbers of parameters and the tags. -/
def rename (slot param : Nat → Nat) (tag : TypeTag → TypeTag) : Term → Term
  | .literal value => .literal value
  | .field s name => .field (slot s) name
  | .param index => .param (param index)
  | .typed term t => .typed (term.rename slot param tag) (tag t)
  | .binary op left right =>
    .binary op (left.rename slot param tag) (right.rename slot param tag)
  | .not term => .not (term.rename slot param tag)
  | .isNil term => .isNil (term.rename slot param tag)
  | .list items => .list (renameItems slot param tag items)

def renameItems (slot param : Nat → Nat) (tag : TypeTag → TypeTag) : List Term → List Term
  | [] => []
  | t :: rest => t.rename slot param tag :: renameItems slot param tag rest

end

variable {slot param slot' param' : Nat → Nat} {tag tag' : TypeTag → TypeTag}

theorem renameItems_eq_map (items : List Term) :
    renameItems slot param tag items = items.map (rename slot param tag) := by
  induction items with
  | nil => rfl
  | cons t rest ih => rw [renameItems, ih, List.map_cons]

theorem shift_eq_rename (offset : Nat) (t : Term) :
    t.shift offset = t.rename (shiftSlot offset) id (TypeTag.shift offset) := by
  induction t with
  | literal value => rfl
  | field slot name => rfl
  | param index => rfl
  | typed term tag ih => simp only [shift, rename, ih]
  | binary op left right ihl ihr => simp only [shift, rename, ihl, ihr]
  | not term ih => simp only [shift, rename, ih]
  | isNil term ih => simp only [shift, rename, ih]
  | list items ih =>
    simp only [shift, rename, shiftList_eq_map, renameItems_eq_map]
    exact congrArg Term.list (List.map_congr_left ih)

theorem shiftParams_eq_rename (count : Nat) (t : Term) :
    t.shiftParams count = t.rename id (· + count) id := by
  induction t with
  | literal value => rfl
  | field slot name => rfl
  | param index => rfl
  | typed term tag ih => simp only [shiftParams, rename, ih, id]
  | binary op left right ihl ihr => simp only [shiftParams, rename, ihl, ihr]
  | not term ih => simp only [shiftParams, rename, ih]
  | isNil term ih => simp only [shiftParams, rename, ih]
  | list items ih =>
    simp only [shiftParams, rename, shiftParamsList_eq_map, renameItems_eq_map]
    exact congrArg Term.list (List.map_congr_left ih)

theorem mapTags_eq_rename (f : TypeTag → TypeTag) (t : Term) :
    t.mapTags f = t.rename id id f := by
  induction t with
  | literal value => rfl
  | field slot name => rfl
  | param index => rfl
  | typed term tag ih => simp only [mapTags, rename, ih]
  | binary op left right ihl ihr => simp only [mapTags, rename, ihl, ihr]
  | not term ih => simp only [mapTags, rename, ih]
  | isNil term ih => simp only [mapTags, rename, ih]
  | list items ih =>
    simp only [mapTags, rename, mapTagsList_eq_map, renameItems_eq_map]
    exact congrArg Term.list (List.map_congr_left ih)

theorem rename_rename (t : Term) :
    (t.rename slot param tag).rename slot' param' tag' =
      t.rename (slot' ∘ slot) (param' ∘ param) (tag' ∘ tag) := by
  induction t with
  | literal value => rfl
  | field slot name => rfl
  | param index => rfl
  | typed term tag ih => simp only [rename, ih, Function.comp_apply]
  | binary op left right ihl ihr => simp only [rename, ihl, ihr]
  | not term ih => simp only [rename, ih]
  | isNil term ih => simp only [rename, ih]
  | list items ih =>
    simp only [rename, renameItems_eq_map, List.map_map]
    exact congrArg Term.list (List.map_congr_left ih)

theorem rename_id (t : Term) : t.rename id id id = t := by
  induction t with
  | literal value => rfl
  | field slot name => rfl
  | param index => rfl
  | typed term tag ih => simp only [rename, ih, id]
  | binary op left right ihl ihr => simp only [rename, ihl, ihr]
  | not term ih => simp only [rename, ih]
  | isNil term ih => simp only [rename, ih]
  | list items ih =>
    have hitems : items.map (rename id id id) = items.map id := List.map_congr_left ih
    rw [rename, renameItems_eq_map, hitems, List.map_id]

/-- Renamed slots and the slots of renamed tags are the renamed slots of the term. -/
theorem slots_rename (htag : ∀ t : TypeTag, (tag t).slots = t.slots.map slot) (t : Term) :
    (t.rename slot param tag).slots = t.slots.map slot := by
  induction t with
  | literal value => rfl
  | field slot name => rfl
  | param index => rfl
  | typed term tag ih => simp only [rename, slots, ih, htag, List.map_append]
  | binary op left right ihl ihr => simp only [rename, slots, ihl, ihr, List.map_append]
  | not term ih => simpa only [rename, slots] using ih
  | isNil term ih => simpa only [rename, slots] using ih
  | list items ih =>
    simp only [rename, slots, renameItems_eq_map, itemSlots_eq_flatMap, List.flatMap_map,
      List.map_flatMap]
    exact List.flatMap_congr ih

theorem tags_rename (t : Term) : (t.rename slot param tag).tags = t.tags.map tag := by
  induction t with
  | literal value => rfl
  | field slot name => rfl
  | param index => rfl
  | typed term tag ih => simp only [rename, tags, ih, List.map_cons]
  | binary op left right ihl ihr => simp only [rename, tags, ihl, ihr, List.map_append]
  | not term ih => simpa only [rename, tags] using ih
  | isNil term ih => simpa only [rename, tags] using ih
  | list items ih =>
    simp only [rename, tags, renameItems_eq_map, itemTags_eq_flatMap, List.flatMap_map,
      List.map_flatMap]
    exact List.flatMap_congr ih

end StagedJoin.Term
