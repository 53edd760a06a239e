import StagedJoin.Proofs.Condition.Renaming

/-!
Moving conditions behind other slots. A move renames every mentioned slot and keeps
the base; it commutes with conjoining, with renumbering parameters and with
replacing tags, so a condition may be moved before or after any of them.
-/
namespace StagedJoin

variable {offset : Nat}

/-! ## Slots -/

@[simp] theorem shiftSlot_zero (offset : Nat) : shiftSlot offset 0 = 0 := rfl

theorem shiftSlot_of_pos {slot : Nat} (h : 0 < slot) : shiftSlot offset slot = slot + offset := by
  rw [shiftSlot, if_neg (by omega)]

theorem shiftSlot_le (offset : Nat) {slot last : Nat} (h : slot ≤ last) :
    shiftSlot offset slot ≤ last + offset := by
  unfold shiftSlot
  split <;> omega

theorem shiftSlot_lt (offset : Nat) {slot next : Nat} (h : slot < next) :
    shiftSlot offset slot < next + offset := by
  unfold shiftSlot
  split <;> omega

theorem shiftSlot_mono (offset : Nat) (m n : Nat) (h : m ≤ n) :
    shiftSlot offset m ≤ shiftSlot offset n := by
  unfold shiftSlot
  split <;> split <;> omega

theorem forall_mem_map_shiftSlot_le (offset : Nat) {slots : List Nat} {last : Nat}
    (h : ∀ s ∈ slots, s ≤ last) : ∀ s ∈ slots.map (shiftSlot offset), s ≤ last + offset := by
  intro s hs
  obtain ⟨origin, horigin, rfl⟩ := List.mem_map.mp hs
  exact shiftSlot_le offset (h origin horigin)

/-! ## Mentioned slots of a moved condition -/

theorem TypeTag.slots_shift (offset : Nat) (tag : TypeTag) :
    (tag.shift offset).slots = tag.slots.map (shiftSlot offset) := by
  cases tag <;> rfl

theorem Term.slots_shift (offset : Nat) (t : Term) :
    (t.shift offset).slots = t.slots.map (shiftSlot offset) := by
  rw [shift_eq_rename, slots_rename (TypeTag.slots_shift offset)]

theorem Condition.slots_shift (offset : Nat) (c : Condition) :
    (c.shift offset).slots = c.slots.map (shiftSlot offset) := by
  simp only [shift, slots, Term.slots_shift, Param.shift, List.map_append, List.flatMap_map,
    List.map_flatMap, TypeTag.slots_shift]

theorem Condition.maxSlot?_shift (offset : Nat) (c : Condition) :
    (c.shift offset).maxSlot? = c.maxSlot?.map (shiftSlot offset) := by
  rw [← max?_slots, slots_shift, max?_map (shiftSlot_mono offset), max?_slots]

theorem OnClause.slots_shift (offset : Nat) (on : OnClause) :
    (on.shift offset).slots = on.slots.map (shiftSlot offset) := by
  cases on with
  | compiled c => exact c.slots_shift offset
  | deferred p natural =>
    cases natural with
    | none => rfl
    | some c => exact c.slots_shift offset

/-! ## Mentioned slots of other operations -/

theorem Term.slots_shiftParams (offset : Nat) (t : Term) :
    (t.shiftParams offset).slots = t.slots := by
  have htag : ∀ tag : TypeTag, (id tag).slots = tag.slots.map id := fun tag =>
    (List.map_id tag.slots).symm
  rw [shiftParams_eq_rename, slots_rename htag, List.map_id]

theorem Condition.mem_slots_and {a b : Condition} {s : Nat} (h : s ∈ (a.and b).slots) :
    s ∈ a.slots ∨ s ∈ b.slots := by
  unfold Condition.and at h
  split at h
  · exact .inr h
  · split at h
    · exact .inl h
    · simp only [slots, Term.slots, Term.slots_shiftParams, List.flatMap_append,
        List.mem_append] at h ⊢
      exact or_or_or_comm.mp h

/-- Replacing tags by ones that mention no other slots adds none. -/
theorem Term.mem_slots_of_mapTags {f : TypeTag → TypeTag}
    (hf : ∀ tag, ∀ s ∈ (f tag).slots, s ∈ tag.slots) (t : Term) {s : Nat}
    (hs : s ∈ (t.mapTags f).slots) : s ∈ t.slots := by
  induction t with
  | literal value => exact hs
  | field slot name => exact hs
  | param index => exact hs
  | typed term tag ih =>
    simp only [mapTags, slots, List.mem_append] at hs ⊢
    exact hs.imp ih (hf tag s)
  | binary op left right ihl ihr =>
    simp only [mapTags, slots, List.mem_append] at hs ⊢
    exact hs.imp ihl ihr
  | not term ih => exact ih hs
  | isNil term ih => exact ih hs
  | list items ih =>
    simp only [mapTags, slots, mapTagsList_eq_map, itemSlots_eq_flatMap, List.flatMap_map,
      List.mem_flatMap] at hs ⊢
    obtain ⟨t, ht, hs⟩ := hs
    exact ⟨t, ht, ih t ht hs⟩

theorem Term.tags_mapTags (f : TypeTag → TypeTag) (t : Term) :
    (t.mapTags f).tags = t.tags.map f := by
  rw [mapTags_eq_rename, tags_rename]

/-- The slot of a tag is a slot of the term that holds the tag. -/
theorem Term.mem_slots_of_mem_tags {t : Term} {tag : TypeTag} (ht : tag ∈ t.tags) {s : Nat}
    (hs : s ∈ tag.slots) : s ∈ t.slots := by
  induction t with
  | literal value => cases ht
  | field slot name => cases ht
  | param index => cases ht
  | typed term tag' ih =>
    rw [slots, List.mem_append]
    rcases List.mem_cons.mp ht with rfl | ht
    · exact .inr hs
    · exact .inl (ih ht)
  | binary op left right ihl ihr =>
    rw [slots, List.mem_append]
    exact (List.mem_append.mp ht).imp ihl ihr
  | not term ih => exact ih ht
  | isNil term ih => exact ih ht
  | list items ih =>
    simp only [tags, slots, itemTags_eq_flatMap, itemSlots_eq_flatMap, List.mem_flatMap] at ht ⊢
    obtain ⟨t, hm, ht⟩ := ht
    exact ⟨t, hm, ih t hm ht⟩

/-! ## Moves commute with other operations -/

theorem Term.shift_shiftParams (count : Nat) (t : Term) :
    (t.shiftParams count).shift offset = (t.shift offset).shiftParams count := by
  simp only [shift_eq_rename, shiftParams_eq_rename, rename_rename, Function.id_comp,
    Function.comp_id]

/-- Tags may be replaced before a move or, by their moved counterparts, after it. -/
theorem Term.mapTags_shift {f g : TypeTag → TypeTag}
    (h : ∀ tag, g (tag.shift offset) = (f tag).shift offset) (t : Term) :
    (t.shift offset).mapTags g = (t.mapTags f).shift offset := by
  have htags : g ∘ TypeTag.shift offset = TypeTag.shift offset ∘ f := funext h
  simp only [shift_eq_rename, mapTags_eq_rename, rename_rename, Function.id_comp,
    Function.comp_id, htags]

@[simp] theorem Term.isTrue_shift (offset : Nat) (t : Term) :
    (t.shift offset).isTrue = t.isTrue := by
  cases t <;> rfl

@[simp] theorem Condition.isTruth_shift (offset : Nat) (c : Condition) :
    (c.shift offset).isTruth = c.isTruth := by
  simp [isTruth, shift]

theorem Condition.shift_and (a b : Condition) :
    (a.and b).shift offset = (a.shift offset).and (b.shift offset) := by
  unfold Condition.and
  simp only [isTruth_shift]
  split
  · rfl
  · split
    · rfl
    · simp only [shift, Term.shift, Term.shift_shiftParams, List.map_append, List.length_map]

/-! ## One move after another -/

theorem shiftSlot_shiftSlot (m n slot : Nat) :
    shiftSlot n (shiftSlot m slot) = shiftSlot (m + n) slot := by
  unfold shiftSlot
  split
  · rfl
  · rw [if_neg (by omega)]
    omega

theorem shiftSlot_by_zero (slot : Nat) : shiftSlot 0 slot = slot := by
  unfold shiftSlot
  split <;> omega

theorem TypeTag.shift_shift (m n : Nat) (tag : TypeTag) :
    (tag.shift m).shift n = tag.shift (m + n) := by
  cases tag <;> simp only [shift, shiftSlot_shiftSlot]

theorem TypeTag.shift_by_zero (tag : TypeTag) : tag.shift 0 = tag := by
  cases tag <;> simp only [shift, shiftSlot_by_zero]

theorem Term.shift_shift (m n : Nat) (t : Term) : (t.shift m).shift n = t.shift (m + n) := by
  have hslots : shiftSlot n ∘ shiftSlot m = shiftSlot (m + n) := funext (shiftSlot_shiftSlot m n)
  have htags : TypeTag.shift n ∘ TypeTag.shift m = TypeTag.shift (m + n) :=
    funext (TypeTag.shift_shift m n)
  simp only [shift_eq_rename, rename_rename, hslots, htags, Function.id_comp]

theorem Term.shift_by_zero (t : Term) : t.shift 0 = t := by
  have hslots : shiftSlot 0 = id := funext shiftSlot_by_zero
  have htags : TypeTag.shift 0 = id := funext TypeTag.shift_by_zero
  rw [shift_eq_rename, hslots, htags, rename_id]

theorem Term.shiftParams_zero (t : Term) : t.shiftParams 0 = t := by
  rw [shiftParams_eq_rename]
  exact t.rename_id

theorem Condition.shift_shift (m n : Nat) (c : Condition) :
    (c.shift m).shift n = c.shift (m + n) := by
  simp only [shift, Term.shift_shift, List.map_map]
  congr 2
  funext p
  simp only [Function.comp_apply, Param.shift, TypeTag.shift_shift]

theorem Condition.shift_by_zero (c : Condition) : c.shift 0 = c := by
  obtain ⟨term, params⟩ := c
  have hparam : ∀ p : Param, p.shift 0 = p := by
    intro p
    simp only [Param.shift, TypeTag.shift_by_zero]
  simp only [shift, Term.shift_by_zero, List.map_id'' hparam]

theorem OnClause.shift_shift (m n : Nat) (on : OnClause) :
    (on.shift m).shift n = on.shift (m + n) := by
  cases on with
  | compiled c => simp only [shift, Condition.shift_shift]
  | deferred p natural =>
    cases natural <;> simp only [shift, Option.map_none, Option.map_some, Condition.shift_shift]

theorem OnClause.shift_by_zero (on : OnClause) : on.shift 0 = on := by
  cases on with
  | compiled c => simp only [shift, Condition.shift_by_zero]
  | deferred p natural =>
    cases natural <;> simp only [shift, Option.map_none, Option.map_some, Condition.shift_by_zero]

end StagedJoin
