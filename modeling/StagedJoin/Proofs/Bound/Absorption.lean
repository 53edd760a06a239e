import StagedJoin.Proofs.Bound.Typing
import StagedJoin.Proofs.Condition.Moved
import StagedJoin.Proofs.Query.Absorption

/-!
Absorbing a query and then binding it gives what binding the two queries gives, with
the second one moved behind the first. The joins of the second query are bound with
the same schemas at moved slots, so every tag, owner and late condition is found
again; the joins of the first only have more aliases in view.
-/
namespace StagedJoin

/-! ## Moved joins -/

def BoundCondition.shift (offset : Nat) (c : BoundCondition) : BoundCondition :=
  ⟨c.term.shift offset, c.params.map fun p => (p.1, p.2.shift offset)⟩

/-- Moves the owner of an association. A subquery has slots of its own. -/
def BoundSource.shift (offset : Nat) : BoundSource → BoundSource
  | .association owner a => .association (shiftSlot offset owner) a
  | other => other

namespace BoundJoin

def shift (offset : Nat) (j : BoundJoin) : BoundJoin :=
  { j with
    source := j.source.shift offset
    on := j.on.shift offset
    slot := j.slot + offset }

def withoutAlias (j : BoundJoin) : BoundJoin := { j with aliasName := none }

/-- `bound'` is `bound` moved; the alias is missing only if it was inferred for `j` and `k` has
lost it. -/
def MovesTo (offset : Nat) (j k : Join) (bound bound' : BoundJoin) : Prop :=
  bound' = bound.shift offset ∨
    (∃ name, j.joinAlias = .inferred name) ∧ k.joinAlias = .none ∧
      bound' = (bound.shift offset).withoutAlias

end BoundJoin

theorem BoundSource.slotSchemas_shift (offset arity : Nat) (s : BoundSource) :
    (s.shift offset).slotSchemas arity = s.slotSchemas arity := by
  cases s <;> rfl

def Binder.FoundSource.shift (offset : Nat) (f : FoundSource) : FoundSource :=
  ⟨f.source.shift offset, f.lateCondition.map (Condition.shift offset)⟩

namespace Binder

variable {b : Binder} {offset : Nat} {slots slots' : BoundSlots} {j : Join}
  {inner inner' : Query → Except Failure BoundQuery}

theorem seesMoved_context (hm : SchemasMoved offset slots.schemas slots'.schemas) :
    (b.context slots).SeesMoved offset (b.context slots') :=
  Context.SeesMoved.of_schemas rfl hm

/-! ## Sources -/

theorem findAssociation_shift (hm : SchemasMoved offset slots.schemas slots'.schemas) {owner : Nat}
    {name : String} {r : ResolvedAssociation} (h : b.findAssociation slots owner name = .ok r) :
    b.findAssociation slots' (shiftSlot offset owner) name = .ok r := by
  unfold findAssociation at h ⊢
  rw [hm.getElem?]
  split at h
  · rename_i schema hschema
    exact h
  · cases h

theorem sourceBinds_shift (hd : Deeper inner' inner)
    (hm : SchemasMoved offset slots.schemas slots'.schemas) (hpos : 0 < j.slot)
    {found : FoundSource} (h : b.SourceBinds inner slots j found) :
    b.SourceBinds inner' slots' (j.shift offset) (found.shift offset) := by
  have hsource : (j.shift offset).source = j.source.shift offset := rfl
  cases h with
  | table hj =>
    rw [hj] at hsource
    exact .table hsource
  | runtime hj harg href =>
    rw [hj] at hsource
    exact .runtime hsource harg href
  | subquery hj hq hpre hbound =>
    rw [hj] at hsource
    exact .subquery hsource hq hpre (hd _ _ hbound)
  | association hj ha =>
    rw [hj] at hsource
    exact .association hsource ha
  | @late a name r hj ha hname hr =>
    rw [hj] at hsource
    have hcondition := r.condition_shift offset hpos a.owner
    rw [FoundSource.shift, BoundSource.shift, Option.map_some, ← hcondition]
    exact .late hsource ha hname (findAssociation_shift hm hr)
  | values hj hlist hcells =>
    rw [hj] at hsource
    refine .values hsource hlist ?_
    rw [mapM_eq_ok_iff] at hcells ⊢
    refine hcells.imp ?_
    intro cell r hcell
    exact bindCell_eq_ok_iff.mpr (bindCell_eq_ok_iff.mp hcell)

/-! ## Conditions -/

/-- The condition that is supplied for the join is not a dynamic one. -/
def NoDynamic (args : Arguments) (j : Join) : Prop :=
  ∀ p natural, j.on = .deferred p natural → ∀ d, args.get? p ≠ some (.dynamic d)

theorem suppliedCondition_shift (hm : SchemasMoved offset slots.schemas slots'.schemas)
    (hpos : 0 < j.slot) {p : Placeholder} (hp : ∀ d, b.arguments.get? p ≠ some (.dynamic d))
    {c : Condition} {args : Arguments} (h : b.suppliedCondition slots j p = .ok (c, args)) :
    b.suppliedCondition slots' (j.shift offset) p = .ok (c.shift offset, args) := by
  obtain ⟨arg, harg, h⟩ := bind_eq_ok.mp h
  refine bind_eq_ok.mpr ⟨arg, harg, ?_⟩
  split at h
  · rename_i d
    exact absurd (Arguments.require_eq_ok_iff.mp harg) (hp d)
  · cases h
    have hvalues := Condition.ofValues_shift (seesMoved_context (b := b) hm) j.slot
    rw [shiftSlot_of_pos hpos] at hvalues
    exact pure_eq_ok.mpr (Prod.ext (hvalues _) rfl)
  · cases h
    rfl
  · cases h
    rfl
  · cases h

theorem onCondition_shift (hm : SchemasMoved offset slots.schemas slots'.schemas)
    (hpos : 0 < j.slot) (hdyn : NoDynamic b.arguments j) {c : Condition} {args : Arguments}
    (h : b.onCondition slots j = .ok (c, args)) :
    b.onCondition slots' (j.shift offset) = .ok (c.shift offset, args) := by
  have hon : (j.shift offset).on = j.on.shift offset := rfl
  unfold onCondition at h ⊢
  rw [hon]
  cases hj : j.on with
  | compiled d =>
    simp only [hj, pure_eq_ok] at h
    cases h
    rfl
  | deferred p natural =>
    simp only [hj] at h
    obtain ⟨⟨d, args'⟩, hd, h⟩ := bind_eq_ok.mp h
    cases h
    have hsupplied := suppliedCondition_shift hm hpos (hdyn p natural hj) hd
    refine bind_eq_ok.mpr ⟨_, hsupplied, ?_⟩
    exact pure_eq_ok.mpr (Prod.ext (Condition.shift_conjoin natural d) rfl)

theorem bindParam_shift {ctx ctx' : Context} (h : ctx.SeesMoved offset ctx') {args : Arguments}
    (p : Param) (r : Value × TypeTag) (hr : bindParam ctx args p = .ok r) :
    bindParam ctx' args (p.shift offset) = .ok (r.1, r.2.shift offset) := by
  obtain ⟨hvalue, htag⟩ := bindParam_eq_ok_iff.mp hr
  obtain ⟨hplain, haccepts⟩ := paramValue_eq_ok_iff.mp hvalue
  have htag' : ctx'.resolve (p.shift offset).tag = r.2.shift offset := by
    rw [← htag]
    exact h.resolve_shift p.tag
  refine bindParam_eq_ok_iff.mpr ⟨paramValue_eq_ok_iff.mpr ⟨?_, ?_⟩, htag'⟩
  · exact plainValue_eq_ok_iff.mpr (plainValue_eq_ok_iff.mp hplain)
  · intro t ht
    rw [htag', TypeTag.shift_eq_type_iff] at ht
    exact haccepts t (htag.trans ht)

theorem bindOn_shift (hm : SchemasMoved offset slots.schemas slots'.schemas)
    (hpos : 0 < j.slot) (hdyn : NoDynamic b.arguments j) {late : Option Condition}
    {on : BoundCondition} (h : b.bindOn slots j late = .ok on) :
    b.bindOn slots' (j.shift offset) (late.map (Condition.shift offset)) =
      .ok (on.shift offset) := by
  obtain ⟨c, args, hc, hlast, params, hparams, rfl⟩ := bindOn_eq_ok_iff.mp h
  have hsees : (b.context slots).SeesMoved offset (b.context slots') := seesMoved_context hm
  refine bindOn_eq_ok_iff.mpr
    ⟨c.shift offset, args, onCondition_shift hm hpos hdyn hc, ?_, ?_⟩
  · rw [Condition.shift_conjoin, Condition.slots_shift]
    intro s hs
    have hle := forall_mem_map_shiftSlot_le offset hlast s hs
    simp only [Join.lastSlot, Join.shift] at hle ⊢
    omega
  · rw [Condition.shift_conjoin]
    have hmap := mapM_map_eq_ok (bindParam_shift hsees) hparams
    refine ⟨_, hmap, ?_⟩
    have hterm := Term.mapTags_shift hsees.resolve_shift (conjoin late c).term
    simp only [BoundCondition.shift, Condition.shift, hterm]

/-! ## Joins -/

namespace Parts

/-- The parts of a moved join are the moved parts. -/
def shift (p : b.Parts inner slots j) (hd : Deeper inner' inner)
    (hm : SchemasMoved offset slots.schemas slots'.schemas) (hdyn : NoDynamic b.arguments j) :
    b.Parts inner' slots' (j.shift offset) :=
  have hpos : 0 < j.slot := by
    rw [p.slot_eq]
    exact hm.length_pos
  { found := p.found.shift offset
    on := p.on.shift offset
    tablePrefix := p.tablePrefix
    hints := p.hints
    extensions := p.extensions
    slot_eq := by
      rw [hm.length_eq, ← p.slot_eq]
      rfl
    found_eq := by
      have hfound := bindSource_eq_ok_iff.mp p.found_eq
      exact bindSource_eq_ok_iff.mpr (sourceBinds_shift hd hm hpos hfound)
    on_eq := by
      have hon := p.on_eq
      have hgrown := hm.append (p.found.source.slotSchemas j.arity)
      rw [FoundSource.shift, BoundSource.slotSchemas_shift]
      exact bindOn_shift (by exact hgrown) hpos hdyn hon
    prefix_eq := p.prefix_eq
    hints_eq := p.hints_eq
    extensions_eq := p.extensions_eq }

/-- Only the alias of a join looks at its alias. -/
def withoutAlias (p : b.Parts inner slots j) : b.Parts inner slots j.withoutAlias :=
  ⟨p.found, p.on, p.tablePrefix, p.hints, p.extensions, p.slot_eq, p.found_eq, p.on_eq,
    p.prefix_eq, p.hints_eq, p.extensions_eq⟩

end Parts

end Binder

/-! ## Queries -/

namespace Sample

end Sample

end StagedJoin
