import StagedJoin.Bound.Binding
import StagedJoin.Proofs.Condition.Shift
import StagedJoin.Proofs.Outcome

/-!
Conditions seen from a query that has more slots. The schemas of the two queries
begin with the same base, and those of the smaller one stand at the end of the
larger; whatever is looked up at a slot of the one is found at the moved slot of
the other, so tags, equations and conjunctions come out moved.
-/
namespace StagedJoin

variable {offset : Nat}

/-! ## Schemas -/

/-- `offset` more schemas stand behind the base. -/
def SchemasMoved (offset : Nat) (schemas schemas' : List (Option String)) : Prop :=
  ∃ base front rest, schemas = base :: rest ∧ schemas' = base :: (front ++ rest) ∧
    front.length = offset

namespace SchemasMoved

variable {schemas schemas' : List (Option String)}

theorem getElem? (h : SchemasMoved offset schemas schemas') (slot : Nat) :
    schemas'[shiftSlot offset slot]? = schemas[slot]? := by
  obtain ⟨base, front, rest, rfl, rfl, rfl⟩ := h
  cases slot with
  | zero => rfl
  | succ s =>
    rw [shiftSlot_of_pos (Nat.succ_pos s), Nat.succ_add, List.getElem?_cons_succ,
      List.getElem?_cons_succ, List.getElem?_append_right (Nat.le_add_left _ _),
      Nat.add_sub_cancel]

theorem length_eq (h : SchemasMoved offset schemas schemas') :
    schemas'.length = schemas.length + offset := by
  obtain ⟨base, front, rest, rfl, rfl, rfl⟩ := h
  simp only [List.length_cons, List.length_append]
  omega

theorem length_pos (h : SchemasMoved offset schemas schemas') : 0 < schemas.length := by
  obtain ⟨base, front, rest, rfl, -, -⟩ := h
  exact Nat.succ_pos _

theorem append (h : SchemasMoved offset schemas schemas') (more : List (Option String)) :
    SchemasMoved offset (schemas ++ more) (schemas' ++ more) := by
  obtain ⟨base, front, rest, rfl, rfl, hfront⟩ := h
  refine ⟨base, front, rest ++ more, rfl, ?_, hfront⟩
  rw [List.cons_append, List.append_assoc]

end SchemasMoved

/-! ## Tags -/

/-- `ctx'` knows of the moved slots what `ctx` knows of the slots. -/
structure Context.SeesMoved (offset : Nat) (ctx ctx' : Context) : Prop where
  view_eq : ctx'.view = ctx.view
  schema?_shift : ∀ slot, ctx'.schema? (shiftSlot offset slot) = ctx.schema? slot

namespace Context.SeesMoved

variable {ctx ctx' : Context}

theorem of_schemas (hv : ctx'.view = ctx.view)
    (hs : SchemasMoved offset ctx.schemas ctx'.schemas) : ctx.SeesMoved offset ctx' := by
  refine ⟨hv, ?_⟩
  intro slot
  rw [schema?, schema?, hs.getElem?]

theorem tag_shift (h : ctx.SeesMoved offset ctx') (slot : Nat) (name : String) :
    ctx'.tag (shiftSlot offset slot) name = (ctx.tag slot name).shift offset := by
  unfold tag
  rw [h.schema?_shift, h.view_eq]
  split <;> rfl

theorem resolve_shift (h : ctx.SeesMoved offset ctx') (tag : TypeTag) :
    ctx'.resolve (tag.shift offset) = (ctx.resolve tag).shift offset := by
  cases tag with
  | any => rfl
  | type t => rfl
  | field slot name => exact h.tag_shift slot name

end Context.SeesMoved

theorem TypeTag.shift_eq_type_iff {tag : TypeTag} {t : ColumnType} :
    tag.shift offset = .type t ↔ tag = .type t := by
  cases tag <;> simp [shift]

/-! ## Conjunctions -/

/-- A compiled term and its parameters, moved. -/
def Compiled.shift (offset : Nat) (c : Compiled) : Compiled :=
  (c.1.shift offset, c.2.map (Param.shift offset))

namespace Conjunction

def shift (offset : Nat) (c : Conjunction) : Conjunction :=
  ⟨c.term.map (Term.shift offset), c.params.map (Param.shift offset)⟩

theorem shift_addEquation (c : Conjunction) (slot : Nat) (name : String) (value : Compiled) :
    (c.addEquation slot name value).shift offset =
      (c.shift offset).addEquation (shiftSlot offset slot) name (value.shift offset) := by
  obtain ⟨term, params⟩ := c
  cases term <;>
    simp only [addEquation, shift, Compiled.shift, Term.andThen, Term.eq, Term.shift,
      List.map_append, Option.map_some, Option.map_none]

theorem condition_shift (c : Conjunction) :
    (c.shift offset).condition = c.condition.shift offset := by
  obtain ⟨term, params⟩ := c
  cases term <;> rfl

end Conjunction

namespace Condition

variable {ctx ctx' : Context}

theorem runtimeValue_shift (h : ctx.SeesMoved offset ctx') (slot count : Nat) (name : String)
    (v : Value) :
    runtimeValue ctx' (shiftSlot offset slot) count name v =
      (runtimeValue ctx slot count name v).shift offset := by
  unfold runtimeValue
  split <;>
    simp only [h.tag_shift, Compiled.shift, Term.shift, Param.shift, List.map_cons, List.map_nil]

/-- A keyword list of runtime values may be compiled before a move or after it. -/
theorem ofValues_shift (h : ctx.SeesMoved offset ctx') (slot : Nat)
    (pairs : List (String × Value)) :
    ofValues ctx' (shiftSlot offset slot) pairs = (ofValues ctx slot pairs).shift offset := by
  have hfold : ∀ before : Conjunction,
      pairs.foldl (fun (c : Conjunction) p => c.addEquation (shiftSlot offset slot) p.1
        (runtimeValue ctx' (shiftSlot offset slot) c.params.length p.1 p.2)) (before.shift offset) =
      (pairs.foldl (fun (c : Conjunction) p => c.addEquation slot p.1
        (runtimeValue ctx slot c.params.length p.1 p.2)) before).shift offset := by
    induction pairs with
    | nil => intro before; rfl
    | cons p rest ih =>
      intro before
      have hlength : (before.shift offset).params.length = before.params.length :=
        List.length_map ..
      rw [List.foldl_cons, List.foldl_cons, ← ih, Conjunction.shift_addEquation, hlength,
        runtimeValue_shift h]
  unfold ofValues
  rw [← Conjunction.condition_shift, ← hfold]
  rfl

theorem shift_conjoin (first : Option Condition) (c : Condition) :
    Binder.conjoin (first.map (Condition.shift offset)) (c.shift offset) =
      (Binder.conjoin first c).shift offset := by
  cases first with
  | none => rfl
  | some natural => exact (shift_and natural c).symm

end Condition

theorem ResolvedAssociation.condition_shift (r : ResolvedAssociation) (offset : Nat) {slot : Nat}
    (hs : 0 < slot) (owner : Nat) :
    r.condition (slot + offset) (shiftSlot offset owner) =
      (r.condition slot owner).shift offset := by
  simp only [condition, Condition.shift, Term.eq, Term.shift, shiftSlot_of_pos hs, List.map_nil]

end StagedJoin
