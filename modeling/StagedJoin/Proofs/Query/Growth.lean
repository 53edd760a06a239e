import StagedJoin.Proofs.Compiler.Exchange
import StagedJoin.Proofs.Compiler.Relocation
import StagedJoin.Proofs.Query.Composition

/-!
How a query grows. Whatever is built on it, and whatever absorbs it, its joins stay
together in their order, and every slot but that of the base keeps the schema that is
known of it. The base alone gives way: a query that is absorbed shares the base of the
query that absorbs it.
-/
namespace StagedJoin.Query

/-- `q` has become part of `later`, where its joins start at a place and stand a number of slots
further. -/
inductive GrowsInto (q : Query) : Query → Nat → Nat → Prop
  | refl : GrowsInto q q 0 0
  | withAlias {later : Query} {place offset : Nat} (name : String)
    (h : GrowsInto q later place offset) : GrowsInto q (later.withAlias name) place offset
  | withPrefix {later : Query} {place offset : Nat} (tablePrefix : String)
    (h : GrowsInto q later place offset) : GrowsInto q (later.withPrefix tablePrefix) place offset
  | join {later r : Query} {place offset : Nat} (c : Compiler) (i : Invocation)
    (h : GrowsInto q later place offset) (hinner : ∀ inner ∈ i.target.queries, inner.Reachable)
    (hr : c.join later i = .ok r) : GrowsInto q r place offset
  | absorb {later other r : Query} {place offset : Nat} (h : GrowsInto q later place offset)
    (hother : other.Reachable) (hr : later.absorb other = .ok r) : GrowsInto q r place offset
  | absorbed {later other r : Query} {place offset : Nat} (h : GrowsInto q later place offset)
    (hother : other.Reachable) (hr : other.absorb later = .ok r) :
    GrowsInto q r (other.joins.length + place) (offset + (other.slotCount - 1))

variable {q later other r : Query} {place offset k slot : Nat} {j : Join} {schema : Option String}

theorem slotSchemas_absorb (ho : other.Reachable) (h : q.absorb other = .ok r) :
    r.slotSchemas = q.slotSchemas ++ other.slotSchemas.tail := by
  obtain ⟨shared, habsorbs⟩ := absorbs_of_absorb ho.layout ho.named h
  exact habsorbs.slotSchemas_eq

/-- Behind the base, the slots of a query that is absorbed follow those that are there. -/
theorem getElem?_slotSchemas_absorbed (hq : q.Reachable) (ho : other.Reachable)
    (h : q.absorb other = .ok r) (hslot : 0 < slot)
    (hschema : other.slotSchemas[slot]? = some schema) :
    r.slotSchemas[slot + (q.slotCount - 1)]? = some schema := by
  have hlength : q.slotSchemas.length = q.slotCount := hq.layout.length_slotSchemas
  have hpos := q.slotCount_pos
  rw [slotSchemas_absorb ho h, List.getElem?_append_right (by omega), List.getElem?_tail]
  have hindex : slot + (q.slotCount - 1) - q.slotSchemas.length + 1 = slot := by omega
  rw [hindex, hschema]

theorem slotSchemas_join {c : Compiler} {i : Invocation} (p : c.Parts q i)
    (h : c.join q i = .ok r) : r.slotSchemas = p.context.schemas := by
  obtain ⟨p', happend⟩ := Compiler.join_eq_ok_iff.mp h
  cases p'.unique p
  exact slotSchemas_append happend

namespace GrowsInto

theorem reachable (h : q.GrowsInto later place offset) (hq : q.Reachable) : later.Reachable := by
  induction h with
  | refl => exact hq
  | withAlias name _ ih => exact ih.withAlias name
  | withPrefix tablePrefix _ ih => exact ih.withPrefix tablePrefix
  | join c i _ hinner hr ih => exact .join c i ih hinner hr
  | absorb _ hother hr ih => exact .absorb ih hother hr
  | absorbed _ hother hr ih => exact .absorb hother ih hr

/-- The joins stay together in their order. -/
theorem getElem?_joins (h : q.GrowsInto later place offset) (hj : q.joins[k]? = some j) :
    ∃ moved, later.joins[place + k]? = some moved ∧ j.MovesTo offset moved := by
  induction h with
  | refl => exact ⟨j, by rwa [Nat.zero_add], .refl j⟩
  | withAlias _ _ ih => exact ih
  | withPrefix _ _ ih => exact ih
  | join c i _ _ hr ih =>
    obtain ⟨moved, hmoved, hmove⟩ := ih
    obtain ⟨built, -, hjoins, -⟩ := joins_of_join hr
    refine ⟨moved, ?_, hmove⟩
    rw [hjoins, List.getElem?_append_left (List.getElem?_eq_some_iff.mp hmoved).1, hmoved]
  | absorb _ _ hr ih =>
    obtain ⟨moved, hmoved, hmove⟩ := ih
    obtain ⟨-, -, more, hjoins, -⟩ := absorb_spec hr
    refine ⟨moved, ?_, hmove⟩
    rw [hjoins, List.getElem?_append_left (List.getElem?_eq_some_iff.mp hmoved).1, hmoved]
  | absorbed _ _ hr ih =>
    obtain ⟨mid, hmid, hmove⟩ := ih
    obtain ⟨-, -, more, hjoins, hmore⟩ := absorb_spec hr
    obtain ⟨hlt, rfl⟩ := List.getElem?_eq_some_iff.mp hmid
    have hlt' := hmore.length_eq ▸ hlt
    refine ⟨more.get ⟨_, hlt'⟩, ?_, hmove.trans (hmore.get hlt hlt')⟩
    rw [hjoins, Nat.add_assoc, List.getElem?_append_right (Nat.le_add_right _ _),
      Nat.add_sub_cancel_left]
    exact List.getElem?_eq_getElem hlt'

/-- Every slot but that of the base keeps its schema. -/
theorem getElem?_slotSchemas (h : q.GrowsInto later place offset) (hq : q.Reachable)
    (hslot : slot ≠ 0) (hschema : q.slotSchemas[slot]? = some schema) :
    later.slotSchemas[shiftSlot offset slot]? = some schema := by
  have hpos : 0 < slot := Nat.pos_of_ne_zero hslot
  rw [shiftSlot_of_pos hpos]
  induction h with
  | refl => exact hschema
  | withAlias _ _ ih => exact ih
  | withPrefix _ _ ih => exact ih
  | join c i _ _ hr ih =>
    obtain ⟨p, happend⟩ := Compiler.join_eq_ok_iff.mp hr
    rw [slotSchemas_append happend,
      List.getElem?_append_left (List.getElem?_eq_some_iff.mp ih).1, ih]
  | absorb _ hother hr ih =>
    rw [slotSchemas_absorb hother hr,
      List.getElem?_append_left (List.getElem?_eq_some_iff.mp ih).1, ih]
  | absorbed h hother hr ih =>
    rw [← Nat.add_assoc]
    exact getElem?_slotSchemas_absorbed hother (h.reachable hq) hr (by omega) ih

end GrowsInto

/-- `later` has grown from what `c` makes of an invocation on `q`, whose join is now the one at `k`
and stands `offset` slots further than where it was built. -/
structure GrownFrom (later : Query) (c : Compiler) (q : Query) (i : Invocation)
    (k offset : Nat) : Prop where
  reachable : q.Reachable
  inner : ∀ inner ∈ i.target.queries, inner.Reachable
  grows : ∃ r place, c.join q i = .ok r ∧ r.GrowsInto later place offset ∧
    k = place + q.joins.length

namespace GrownFrom

variable {c : Compiler} {i : Invocation}

theorem reachable_later (h : later.GrownFrom c q i k offset) : later.Reachable := by
  obtain ⟨r, place, hr, hgrows, -⟩ := h.grows
  exact hgrows.reachable (.join c i h.reachable h.inner hr)

theorem exists_join (h : later.GrownFrom c q i k offset) (p : c.Parts q i) :
    ∃ j, later.joins[k]? = some j ∧ p.join.MovesTo offset j := by
  obtain ⟨r, place, hr, hgrows, rfl⟩ := h.grows
  obtain ⟨p', happend⟩ := Compiler.join_eq_ok_iff.mp hr
  cases p'.unique p
  obtain ⟨-, aliases, -, rfl⟩ := append_eq_ok_iff.mp happend
  exact hgrows.getElem?_joins List.getElem?_concat_length

/-- What was known where the clause was compiled is known at the slots that have moved. -/
theorem getElem?_slotSchemas (h : later.GrownFrom c q i k offset) (p : c.Parts q i)
    (hslot : slot ≠ 0) (hschema : p.context.schemas[slot]? = some schema) :
    later.slotSchemas[shiftSlot offset slot]? = some schema := by
  obtain ⟨r, place, hr, hgrows, -⟩ := h.grows
  rw [← slotSchemas_join p hr] at hschema
  exact hgrows.getElem?_slotSchemas (.join c i h.reachable h.inner hr) hslot hschema

end GrownFrom

end StagedJoin.Query
