import StagedJoin.Bound

/-!
The slots that a condition mentions, in its fields and in its type tags. The
greatest slot of a condition bounds all of them. Moving a condition moves each
slot; conjoining two conditions, renumbering their parameters and resolving their
tags mention no slot that was not there before.
-/
namespace StagedJoin

/-- A term is a leaf, has one or two parts, or is a list of which every item is a term. -/
@[elab_as_elim, induction_eliminator]
theorem Term.induct {motive : Term → Prop}
    (literal : ∀ value, motive (.literal value))
    (field : ∀ slot name, motive (.field slot name))
    (param : ∀ index, motive (.param index))
    (typed : ∀ term tag, motive term → motive (.typed term tag))
    (binary : ∀ op left right, motive left → motive right → motive (.binary op left right))
    (not : ∀ term, motive term → motive (.not term))
    (isNil : ∀ term, motive term → motive (.isNil term))
    (list : ∀ items, (∀ t ∈ items, motive t) → motive (.list items)) (t : Term) : motive t :=
  Term.rec literal field param typed binary not isNil list (fun _ h => nomatch h)
    (fun _ _ head tail t h => (List.mem_cons.mp h).elim (fun e => e ▸ head) (tail t)) t

/-! ## Mentioned slots -/

/-- The slot of a field tag. -/
def TypeTag.slots : TypeTag → List Nat
  | .field slot _ => [slot]
  | _ => []

mutual

/-- The slots of all fields and type tags. -/
def Term.slots : Term → List Nat
  | .literal _ => []
  | .field slot _ => [slot]
  | .param _ => []
  | .typed term tag => term.slots ++ tag.slots
  | .binary _ left right => left.slots ++ right.slots
  | .not term => term.slots
  | .isNil term => term.slots
  | .list items => Term.itemSlots items

def Term.itemSlots : List Term → List Nat
  | [] => []
  | t :: rest => t.slots ++ itemSlots rest

end

mutual

/-- All type tags. -/
def Term.tags : Term → List TypeTag
  | .literal _ => []
  | .field _ _ => []
  | .param _ => []
  | .typed term tag => tag :: term.tags
  | .binary _ left right => left.tags ++ right.tags
  | .not term => term.tags
  | .isNil term => term.tags
  | .list items => Term.itemTags items

def Term.itemTags : List Term → List TypeTag
  | [] => []
  | t :: rest => t.tags ++ itemTags rest

end

def Condition.slots (c : Condition) : List Nat :=
  c.term.slots ++ c.params.flatMap fun p => p.tag.slots

/-- The slots of the conditions known so far. -/
def OnClause.slots : OnClause → List Nat
  | .compiled c => c.slots
  | .deferred _ natural => natural.elim [] Condition.slots

namespace BoundCondition

def slots (c : BoundCondition) : List Nat :=
  c.term.slots ++ c.params.flatMap fun p => p.2.slots

def tags (c : BoundCondition) : List TypeTag := c.term.tags ++ c.params.map Prod.snd

end BoundCondition

theorem Term.itemSlots_eq_flatMap (items : List Term) : itemSlots items = items.flatMap slots := by
  induction items with
  | nil => rfl
  | cons t rest ih => rw [itemSlots, ih, List.flatMap_cons]

theorem Term.itemTags_eq_flatMap (items : List Term) : itemTags items = items.flatMap tags := by
  induction items with
  | nil => rfl
  | cons t rest ih => rw [itemTags, ih, List.flatMap_cons]

/-! ## The greatest slot -/

theorem maxSlot_eq_max (a b : Option Nat) : maxSlot a b = max a b := by
  cases a <;> cases b <;> rfl

instance : Std.Commutative maxSlot where
  comm a b := by cases a <;> cases b <;> simp [maxSlot, Nat.max_comm]

instance : Std.Associative maxSlot where
  assoc a b c := by cases a <;> cases b <;> cases c <;> simp [maxSlot, Nat.max_assoc]

theorem max?_append (xs ys : List Nat) : (xs ++ ys).max? = maxSlot xs.max? ys.max? := by
  have hcons : ∀ (x : Nat) (xs : List Nat), (x :: xs).max? = maxSlot (some x) xs.max? := by
    intro x xs
    rw [List.max?_cons]
    cases xs.max? <;> rfl
  induction xs with
  | nil => rfl
  | cons x xs ih =>
    rw [List.cons_append, hcons, hcons, ih]
    ac_rfl

/-- What keeps the order keeps the greatest. -/
theorem max?_map {f : Nat → Nat} (hf : ∀ m n, m ≤ n → f m ≤ f n) (xs : List Nat) :
    (xs.map f).max? = xs.max?.map f := by
  cases h : xs.max? with
  | none =>
    rw [List.max?_eq_none_iff.mp h]
    rfl
  | some m =>
    obtain ⟨hm, hle⟩ := List.max?_eq_some_iff.mp h
    refine List.max?_eq_some_iff.mpr ⟨List.mem_map_of_mem hm, ?_⟩
    intro _ hfn
    obtain ⟨n, hn, rfl⟩ := List.mem_map.mp hfn
    exact hf n m (hle n hn)

theorem forall_mem_max?_le {xs : List Nat} {last : Nat} :
    (∀ s ∈ xs.max?, s ≤ last) ↔ ∀ s ∈ xs, s ≤ last := by
  cases h : xs.max? with
  | none => simp [List.max?_eq_none_iff.mp h]
  | some m => simpa using List.max?_le_iff h

theorem TypeTag.max?_slots (tag : TypeTag) : tag.slots.max? = tag.slot? := by
  cases tag <;> rfl

theorem Term.max?_slots (t : Term) : t.slots.max? = t.maxSlot? := by
  induction t with
  | literal value => rfl
  | field slot name => rfl
  | param index => rfl
  | typed term tag ih => rw [slots, max?_append, ih, TypeTag.max?_slots, maxSlot?]
  | binary op left right ihl ihr => rw [slots, max?_append, ihl, ihr, maxSlot?]
  | not term ih => rw [slots, ih, maxSlot?]
  | isNil term ih => rw [slots, ih, maxSlot?]
  | list items ih =>
    rw [slots, maxSlot?]
    induction items with
    | nil => rfl
    | cons t rest ihr =>
      rw [itemSlots, max?_append, maxSlotList?, ih t List.mem_cons_self,
        ihr fun u hu => ih u (List.mem_cons_of_mem _ hu)]

theorem Condition.max?_paramSlots (params : List Param) :
    (params.flatMap fun p => p.tag.slots).max? = maxParamSlot? params := by
  induction params with
  | nil => rfl
  | cons p rest ih =>
    rw [List.flatMap_cons, max?_append, TypeTag.max?_slots, ih]
    rfl

/-- The greatest slot of a condition is the greatest of those it mentions. -/
theorem Condition.max?_slots (c : Condition) : c.slots.max? = c.maxSlot? := by
  rw [slots, max?_append, Term.max?_slots, max?_paramSlots, maxSlot?]

theorem OnClause.max?_slots (on : OnClause) : on.slots.max? = on.maxSlot? := by
  cases on with
  | compiled c => exact c.max?_slots
  | deferred p natural =>
    cases natural with
    | none => rfl
    | some c => exact c.max?_slots

/-- A condition stays below its greatest slot. -/
theorem Condition.forall_mem_maxSlot? (c : Condition) (last : Nat) :
    (∀ s ∈ c.maxSlot?, s ≤ last) ↔ ∀ s ∈ c.slots, s ≤ last := by
  rw [← c.max?_slots, forall_mem_max?_le]

theorem OnClause.forall_mem_maxSlot? (on : OnClause) (last : Nat) :
    (∀ s ∈ on.maxSlot?, s ≤ last) ↔ ∀ s ∈ on.slots, s ≤ last := by
  rw [← on.max?_slots, forall_mem_max?_le]

end StagedJoin
