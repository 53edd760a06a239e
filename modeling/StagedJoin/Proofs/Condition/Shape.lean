import StagedJoin.Proofs.Condition.Shift

/-!
Conditions as shapes with slots in them. The shape of a condition is what is left without
its slots: operators, literals, names, parameters and their values stay where they are.
Shape and slots determine the condition, so the moved condition is the only one of its
shape that mentions the moved slots.
-/
namespace StagedJoin

variable {offset : Nat}

/-! ## Shapes -/

/-- A field tag without its slot. -/
def TypeTag.shape : TypeTag → TypeTag
  | .field _ name => .field 0 name
  | tag => tag

/-- Forgets the slots of fields and type tags. -/
def Term.shape (t : Term) : Term := t.rename (fun _ => 0) id TypeTag.shape

def Param.shape (p : Param) : Param := { p with tag := p.tag.shape }

def Condition.shape (c : Condition) : Condition := ⟨c.term.shape, c.params.map Param.shape⟩

/-! ## A move keeps the shape -/

theorem TypeTag.shape_shift (offset : Nat) (tag : TypeTag) :
    (tag.shift offset).shape = tag.shape := by
  cases tag <;> rfl

theorem Term.shape_shift (offset : Nat) (t : Term) : (t.shift offset).shape = t.shape := by
  have htags : TypeTag.shape ∘ TypeTag.shift offset = TypeTag.shape :=
    funext (TypeTag.shape_shift offset)
  rw [shape, shape, shift_eq_rename, rename_rename, htags]
  rfl

theorem Param.shape_shift (offset : Nat) (p : Param) : (p.shift offset).shape = p.shape := by
  simp only [shape, shift, TypeTag.shape_shift]

theorem Condition.shape_shift (offset : Nat) (c : Condition) :
    (c.shift offset).shape = c.shape := by
  have hparams : Param.shape ∘ Param.shift offset = Param.shape :=
    funext (Param.shape_shift offset)
  simp only [shape, shift, Term.shape_shift, List.map_map, hparams]

/-! ## Shape and slots determine the condition -/

/-- Of one shape are as many slots. -/
theorem TypeTag.length_slots_of_shape {tag tag' : TypeTag} (h : tag.shape = tag'.shape) :
    tag.slots.length = tag'.slots.length := by
  have hlength : ∀ tag : TypeTag, tag.shape.slots.length = tag.slots.length := by
    intro tag
    cases tag <;> rfl
  rw [← hlength, h, hlength]

theorem Term.length_slots_of_shape {t u : Term} (h : t.shape = u.shape) :
    t.slots.length = u.slots.length := by
  have htag : ∀ tag : TypeTag, tag.shape.slots = tag.slots.map fun _ => 0 := by
    intro tag
    cases tag <;> rfl
  have hlength : ∀ t : Term, t.shape.slots.length = t.slots.length := by
    intro t
    rw [shape, slots_rename htag, List.length_map]
  rw [← hlength, h, hlength]

theorem TypeTag.eq_of_shape {tag tag' : TypeTag} (h : tag.shape = tag'.shape)
    (hs : tag.slots = tag'.slots) : tag = tag' := by
  cases tag <;> cases tag' <;> simp_all [shape, slots]

/-- Lists whose items are of one shape each and that mention the same slots in order are
equal, if that is so for each item. -/
theorem eq_of_map_shape {α : Type} {shape : α → α} {slots : α → List Nat} {xs ys : List α}
    (hlength : ∀ {x y}, shape x = shape y → (slots x).length = (slots y).length)
    (hitem : ∀ x ∈ xs, ∀ y, shape x = shape y → slots x = slots y → x = y)
    (h : xs.map shape = ys.map shape) (hs : xs.flatMap slots = ys.flatMap slots) : xs = ys := by
  induction xs generalizing ys with
  | nil => exact (List.map_eq_nil_iff.mp h.symm).symm
  | cons x xs ih =>
    cases ys with
    | nil => cases h
    | cons y ys =>
      obtain ⟨hx, hxs⟩ := List.cons.inj h
      obtain ⟨hsx, hsxs⟩ := List.append_inj hs (hlength hx)
      rw [hitem x List.mem_cons_self y hx hsx,
        ih (fun z hz => hitem z (List.mem_cons_of_mem _ hz)) hxs hsxs]

theorem Term.eq_of_shape {t u : Term} (h : t.shape = u.shape) (hs : t.slots = u.slots) :
    t = u := by
  induction t generalizing u with
  | literal value =>
    cases u <;> cases h
    rfl
  | field slot name =>
    cases u <;> cases h
    cases hs
    rfl
  | param index =>
    cases u <;> cases h
    rfl
  | typed term tag ih =>
    cases u with
    | typed term' tag' =>
      -- parts of one shape have as many slots, so those of the whole split between the same parts
      obtain ⟨ht, htag⟩ := Term.typed.inj h
      obtain ⟨hst, hstag⟩ := List.append_inj hs (length_slots_of_shape ht)
      rw [ih ht hst, TypeTag.eq_of_shape htag hstag]
    | _ => cases h
  | binary op left right ihl ihr =>
    cases u with
    | binary op' left' right' =>
      obtain ⟨rfl, hl, hr⟩ := Term.binary.inj h
      obtain ⟨hsl, hsr⟩ := List.append_inj hs (length_slots_of_shape hl)
      rw [ihl hl hsl, ihr hr hsr]
    | _ => cases h
  | not term ih =>
    cases u with
    | not term' => rw [ih (Term.not.inj h) hs]
    | _ => cases h
  | isNil term ih =>
    cases u with
    | isNil term' => rw [ih (Term.isNil.inj h) hs]
    | _ => cases h
  | list items ih =>
    cases u with
    | list items' =>
      have hitems := Term.list.inj h
      simp only [renameItems_eq_map] at hitems
      simp only [slots, itemSlots_eq_flatMap] at hs
      rw [eq_of_map_shape length_slots_of_shape (fun t ht u => ih t ht) hitems hs]
    | _ => cases h

theorem Param.eq_of_shape {p q : Param} (h : p.shape = q.shape)
    (hs : p.tag.slots = q.tag.slots) : p = q := by
  obtain ⟨value, tag⟩ := p
  obtain ⟨value', tag'⟩ := q
  obtain ⟨rfl, htag⟩ : value = value' ∧ tag.shape = tag'.shape := Param.mk.inj h
  rw [TypeTag.eq_of_shape htag hs]

theorem Condition.eq_of_shape {c d : Condition} (h : c.shape = d.shape)
    (hs : c.slots = d.slots) : c = d := by
  obtain ⟨term, params⟩ := c
  obtain ⟨term', params'⟩ := d
  obtain ⟨hterm, hparams⟩ := Condition.mk.inj h
  obtain ⟨hsterm, hsparams⟩ := List.append_inj hs (Term.length_slots_of_shape hterm)
  have hlength : ∀ {p q : Param}, p.shape = q.shape → p.tag.slots.length = q.tag.slots.length :=
    fun hpq => TypeTag.length_slots_of_shape (Param.mk.inj hpq).2
  have hitem : ∀ p ∈ params, ∀ q, p.shape = q.shape → p.tag.slots = q.tag.slots → p = q :=
    fun _ _ _ => Param.eq_of_shape
  obtain rfl : term = term' := Term.eq_of_shape hterm hsterm
  obtain rfl : params = params' := eq_of_map_shape hlength hitem hparams hsparams
  rfl

/-! ## Moves -/

/-- A move is the one change that keeps the shape and moves every slot. -/
theorem Condition.eq_shift_iff {c d : Condition} :
    d = c.shift offset ↔ d.shape = c.shape ∧ d.slots = c.slots.map (shiftSlot offset) := by
  constructor
  · rintro rfl
    exact ⟨c.shape_shift offset, c.slots_shift offset⟩
  · rintro ⟨hshape, hslots⟩
    apply eq_of_shape
    · rw [hshape, shape_shift]
    · rw [hslots, slots_shift]

/-- A move by `k` adds `k` to every mentioned slot but the base, and what has the shape of the
condition and those slots is the moved condition. Moves add up, a move by nothing changes
nothing, and both sides of a conjunction move alike. The greatest slot is one of those mentioned
and none only where there are none, so a move takes it along. -/
theorem Condition.shift_moves_slots_only (c d : Condition) (j k : Nat) :
    (∀ c', c' = c.shift k ↔
      c'.shape = c.shape ∧ c'.slots = c.slots.map fun i => if i = 0 then 0 else i + k) ∧
    (c.shift j).shift k = c.shift (j + k) ∧ c.shift 0 = c ∧
    (c.and d).shift k = (c.shift k).and (d.shift k) ∧
    (c.maxSlot? = none ↔ c.slots = []) ∧
    (∀ m, c.maxSlot? = some m ↔ m ∈ c.slots ∧ ∀ i ∈ c.slots, i ≤ m) ∧
    (c.shift k).maxSlot? = c.maxSlot?.map fun i => if i = 0 then 0 else i + k := by
  refine ⟨fun c' => eq_shift_iff, c.shift_shift j k, c.shift_by_zero, shift_and c d, ?_, ?_,
    c.maxSlot?_shift k⟩
  · rw [← c.max?_slots]
    exact List.max?_eq_none_iff
  · intro m
    rw [← c.max?_slots]
    exact List.max?_eq_some_iff

/-- Fields, tags inside and tags of parameters move; the base and the parameters stay. -/
example :
    Condition.shift 3 ⟨.eq (.field 1 "post_id") (.typed (.param 0) (.field 0 "id")),
      [⟨.deferred (.positional 0), .field 2 "score"⟩]⟩ =
    ⟨.eq (.field 4 "post_id") (.typed (.param 0) (.field 0 "id")),
      [⟨.deferred (.positional 0), .field 5 "score"⟩]⟩ := rfl

end StagedJoin
