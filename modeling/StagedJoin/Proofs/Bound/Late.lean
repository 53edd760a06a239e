import StagedJoin.Proofs.Bound.Appended
import StagedJoin.Proofs.Bound.Layout
import StagedJoin.Proofs.Query.Placeholders

/-!
The slots whose schemas only binding finds. Where nothing is left to supply, these are
the slots of associations that could not be found when their joins were built, also of
those inside subqueries; in all other slots, the schema or its absence is known before.
-/
namespace StagedJoin

/-- Slot `k` of the source is that of an association that was not found with its join. -/
inductive JoinSource.FoundLate : JoinSource → Nat → Prop
  | association {a : AssociationSource} (ha : a.resolved = none) (k : Nat) :
      FoundLate (.association a) k
  | subquery {q : Query} {tablePrefix : Option (Staged String)} {j : Join} {k : Nat}
      (hj : j ∈ q.joins) (hk : k < j.arity) (h : FoundLate j.source k) :
      FoundLate (.subquery (.literal q) tablePrefix) (j.slot + k)

/-- The slot is that of an association that was not found with its join. -/
def Query.FoundLate (q : Query) (slot : Nat) : Prop :=
  ∃ j ∈ q.joins, ∃ k < j.arity, j.source.FoundLate k ∧ j.slot + k = slot

/-- The sources of a query without placeholders have none. -/
theorem Query.sources_of_placeholders {q : Query} (h : q.placeholders = []) :
    ∀ j ∈ q.joins, j.source.placeholders = [] := by
  intro j hj
  rw [List.eq_nil_iff_forall_not_mem] at h ⊢
  exact (Join.within_of_placeholders fun p hm => h p (mem_placeholders.mpr ⟨j, hj, hm⟩)).source

/-- As many slots, and in each the same schema or none, unless it is found late. -/
def SameUnless (late : Nat → Prop) (known schemas : List (Option String)) : Prop :=
  schemas.length = known.length ∧ ∀ k, ¬ late k → schemas[k]? = known[k]?

namespace SameUnless

variable {late : Nat → Prop} {known schemas : List (Option String)}

theorem refl (schemas : List (Option String)) : SameUnless late schemas schemas :=
  ⟨rfl, fun _ _ => rfl⟩

theorem resize (h : SameUnless late known schemas) (arity : Nat) :
    SameUnless late (resizeSchemas arity known) (resizeSchemas arity schemas) := by
  refine ⟨by rw [length_resizeSchemas, length_resizeSchemas], fun k hk => ?_⟩
  have hsame := h.2 k hk
  unfold resizeSchemas
  rw [h.1, List.getElem?_append, List.getElem?_append, List.length_take, List.length_take, h.1,
    List.getElem?_take, List.getElem?_take, hsame]

theorem mono {late' : Nat → Prop} (h : SameUnless late known schemas)
    (hl : ∀ k, k < known.length → late k → late' k) : SameUnless late' known schemas := by
  refine ⟨h.1, fun k hk => ?_⟩
  by_cases hin : k < known.length
  · exact h.2 k fun hlate => hk (hl k hin hlate)
  · rw [List.getElem?_eq_none (Nat.not_lt.mp hin), List.getElem?_eq_none]
    exact h.1 ▸ Nat.not_lt.mp hin

theorem append {late' : Nat → Prop} {known' schemas' : List (Option String)}
    (h : SameUnless late known schemas) (h' : SameUnless late' known' schemas') :
    SameUnless (fun n => if n < known.length then late n else late' (n - known.length))
      (known ++ known') (schemas ++ schemas') := by
  refine ⟨by rw [List.length_append, List.length_append, h.1, h'.1], fun n hn => ?_⟩
  rw [List.getElem?_append, List.getElem?_append, h.1]
  dsimp only at hn
  by_cases hin : n < known.length
  · rw [if_pos hin] at hn
    rw [if_pos hin, if_pos hin]
    exact h.2 n hn
  · rw [if_neg hin] at hn
    rw [if_neg hin, if_neg hin]
    exact h'.2 _ hn

end SameUnless

namespace Binder

variable {b : Binder} {inner : Query → Except Failure BoundQuery} {slots slots' : BoundSlots}
  {j : Join}

/-- A source with nothing left to supply shows what it showed before, unless it is found late. -/
theorem sameUnless_of_bindSource
    (hinner : ∀ q p, j.source = .subquery (.literal q) p → ∀ bound, inner q = .ok bound →
      SameUnless q.FoundLate q.slotSchemas bound.slotSchemas)
    (hp : j.source.placeholders = []) {found : FoundSource}
    (h : b.bindSource inner slots j = .ok found) :
    SameUnless j.source.FoundLate (j.source.slotSchemas j.arity)
      (found.source.slotSchemas j.arity) := by
  cases bindSource_eq_ok_iff.mp h with
  | table hj =>
    rw [hj]
    exact .refl _
  | runtime hj harg href =>
    rw [hj] at hp
    cases hp
  | @subquery query tablePrefix q _ bound hj hq hpre hbound =>
    rw [hj] at hp ⊢
    cases query with
    | literal given =>
      cases hq
      obtain ⟨hlength, hsame⟩ := (hinner q tablePrefix hj bound hbound).resize j.arity
      refine ⟨hlength, fun k hk => hsame k ?_⟩
      rintro ⟨i, hi, n, hn, hlate, rfl⟩
      exact hk (.subquery hi hn hlate)
    | deferred p => cases hp
  | association hj ha =>
    rw [hj]
    simp only [JoinSource.slotSchemas, ha]
    exact .refl _
  | late hj ha hname hr =>
    rw [hj]
    refine ⟨by rw [BoundSource.length_slotSchemas, JoinSource.length_slotSchemas], ?_⟩
    exact fun k hk => absurd (.association ha k) hk
  | values hj hlist hcells =>
    rw [hj]
    exact .refl _

/-- The joins of a list that follow each other from slot `first` on, each bound in its place. -/
theorem sameUnless_of_forall₂ {js : List Join} {bounds : List BoundJoin}
    (h : List.Forall₂ (fun (j : Join) (bound : BoundJoin) =>
      j.schemas.length = j.arity ∧ SameUnless j.source.FoundLate j.schemas bound.slotSchemas)
      js bounds) {first : Nat} (hjs : Join.Contiguous first js) :
    SameUnless (fun n => ∃ j ∈ js, ∃ k < j.arity, j.source.FoundLate k ∧ j.slot + k = first + n)
      (js.flatMap Join.schemas) (bounds.flatMap BoundJoin.slotSchemas) := by
  induction h generalizing first with
  | nil => exact .refl _
  | @cons j bound js bounds hj _ ih =>
    obtain ⟨hslot, hrest⟩ := hjs
    obtain ⟨harity, hsame⟩ := hj
    refine (hsame.append (ih hrest)).mono fun n _ hn => ?_
    split at hn
    · rename_i hin
      exact ⟨j, List.mem_cons_self, n, harity ▸ hin, hn, by rw [hslot]⟩
    · obtain ⟨i, hi, k, hk, hlate, hik⟩ := hn
      exact ⟨i, List.mem_cons_of_mem _ hi, k, hk, hlate, by omega⟩

theorem sameUnless_of_bindJoins {js : List Join} (hplaced : ∀ j ∈ js, j.WellPlaced)
    (hschemas : ∀ j ∈ js, j.schemas = j.source.slotSchemas j.arity)
    (hp : ∀ j ∈ js, j.source.placeholders = [])
    (hinner : ∀ j ∈ js, ∀ q p, j.source = .subquery (.literal q) p → ∀ bound, inner q = .ok bound →
      SameUnless q.FoundLate q.slotSchemas bound.slotSchemas)
    {bounds : List BoundJoin} (h : b.bindJoins inner slots js = .ok (bounds, slots')) :
    List.Forall₂ (fun (j : Join) (bound : BoundJoin) =>
      j.schemas.length = j.arity ∧ SameUnless j.source.FoundLate j.schemas bound.slotSchemas)
      js bounds := by
  induction js generalizing slots bounds with
  | nil =>
    cases h
    exact .nil
  | cons j rest ih =>
    obtain ⟨bound, t, hbound, more, hmore, rfl⟩ := bindJoins_cons_eq_ok_iff.mp h
    obtain ⟨parts, aliasName, -, rfl⟩ := exists_parts_of_bindJoin hbound
    have hsource := sameUnless_of_bindSource (hinner j List.mem_cons_self)
      (hp j List.mem_cons_self) parts.found_eq
    rw [← hschemas j List.mem_cons_self] at hsource
    refine .cons ⟨(hplaced j List.mem_cons_self).length_schemas, hsource⟩ ?_
    exact ih (fun k hk => hplaced k (List.mem_cons_of_mem _ hk))
      (fun k hk => hschemas k (List.mem_cons_of_mem _ hk))
      (fun k hk => hp k (List.mem_cons_of_mem _ hk))
      (fun k hk => hinner k (List.mem_cons_of_mem _ hk)) hmore

theorem sameUnless_of_bindJoins_base {q : Query} {aliases : OrderedMap Nat} (hq : q.Reachable)
    (hp : ∀ j ∈ q.joins, j.source.placeholders = [])
    (hinner : ∀ j ∈ q.joins, ∀ sub p, j.source = .subquery (.literal sub) p → ∀ bound,
      inner sub = .ok bound → SameUnless sub.FoundLate sub.slotSchemas bound.slotSchemas)
    {bounds : List BoundJoin} {t : BoundSlots}
    (h : b.bindJoins inner ⟨aliases, [q.base.source.schema]⟩ q.joins = .ok (bounds, t)) :
    SameUnless q.FoundLate q.slotSchemas t.schemas := by
  have hjoins := sameUnless_of_forall₂
    (sameUnless_of_bindJoins hq.layout.wellPlaced hq.schemas_eq hp hinner h) hq.layout.contiguous
  have hbase : SameUnless (fun _ => False) [q.base.source.schema] [q.base.source.schema] := .refl _
  rw [schemas_of_bindJoins h]
  refine (hbase.append hjoins).mono fun n _ hn => ?_
  split at hn
  · exact hn.elim
  · rename_i hin
    rw [List.length_singleton] at hin hn
    obtain ⟨j, hj, k, hk, hlate, hik⟩ := hn
    exact ⟨j, hj, k, hk, hlate, by omega⟩

/-- A query with nothing left to supply shows what it showed before, but for the slots that are
found late. -/
theorem sameUnless_of_bindWithin {depth : Nat} {q : Query} {bound : BoundQuery} (hq : q.Reachable)
    (hp : q.placeholders = []) (h : b.bindWithin depth q = .ok bound) :
    SameUnless q.FoundLate q.slotSchemas bound.slotSchemas := by
  induction depth generalizing q bound with
  | zero => cases h
  | succ depth ih =>
    obtain ⟨bounds, t, hrun, rfl⟩ := bindWithin_succ_eq_ok_iff.mp h
    rw [← schemas_of_bindJoins_base hrun]
    have hsources := Query.sources_of_placeholders hp
    refine sameUnless_of_bindJoins_base hq hsources (fun j hj sub p hs subBound hsub => ?_) hrun
    have hnone := hsources j hj
    rw [hs] at hnone
    exact ih (hq.subquery j hj sub p hs) (List.append_eq_nil_iff.mp hnone).1 hsub

/-! ## One more join -/

variable {depth : Nat} {q : Query} {aliases aliases' : OrderedMap Nat} {bounds : List BoundJoin}
  {t : BoundSlots} {found : FoundSource}

/-- What is in view behind the joins of a query refines what was in view before they were bound. -/
theorem schemasRefine_of_bindJoins (hq : q.Reachable)
    (hrun : b.bindJoins (b.bindWithin depth) ⟨aliases, [q.base.source.schema]⟩ q.joins =
      .ok (bounds, t)) : SchemasRefine q.slotSchemas t.schemas := by
  rw [schemas_of_bindJoins hrun]
  refine (SchemasRefine.refl [q.base.source.schema]).append
    (BoundJoin.slotSchemas_of_follows (follows_of_bindJoins hq.schemas_eq ?_ hrun))
  exact fun i hi sub p hs bound hsub =>
    (follows_of_bindWithin (hq.subquery i hi sub p hs) hsub).slotSchemas

/-- What is in view of the clause of a join when it is bound refines what was in view before. -/
theorem schemasRefine_of_appended (hr : Query.Reachable ⟨q.base, q.joins ++ [j], aliases'⟩)
    (hq : q.Reachable)
    (hrun : b.bindJoins (b.bindWithin depth) ⟨aliases, [q.base.source.schema]⟩ q.joins =
      .ok (bounds, t))
    (hfound : b.bindSource (b.bindWithin depth) t j = .ok found) :
    SchemasRefine (q.slotSchemas ++ j.source.slotSchemas j.arity)
      (t.schemas ++ found.source.slotSchemas j.arity) := by
  have hlast : j ∈ q.joins ++ [j] := List.mem_append_right _ (List.mem_singleton.mpr rfl)
  refine (schemasRefine_of_bindJoins hq hrun).append (slotSchemas_of_bindSource ?_ hfound)
  exact fun sub p hs bound hsub =>
    (follows_of_bindWithin (hr.subquery j hlast sub p hs) hsub).slotSchemas

/-- Where nothing is left to supply, it is the same but for the slots that are found late. -/
theorem sameUnless_of_appended (hr : Query.Reachable ⟨q.base, q.joins ++ [j], aliases'⟩)
    (hq : q.Reachable) (hp : q.placeholders = []) (hj : j.source.placeholders = [])
    (hrun : b.bindJoins (b.bindWithin depth) ⟨aliases, [q.base.source.schema]⟩ q.joins =
      .ok (bounds, t))
    (hfound : b.bindSource (b.bindWithin depth) t j = .ok found) :
    SameUnless (Query.FoundLate ⟨q.base, q.joins ++ [j], aliases'⟩)
      (q.slotSchemas ++ j.source.slotSchemas j.arity)
      (t.schemas ++ found.source.slotSchemas j.arity) := by
  have hlast : j ∈ q.joins ++ [j] := List.mem_append_right _ (List.mem_singleton.mpr rfl)
  have hsources := Query.sources_of_placeholders hp
  have hinner : ∀ i ∈ q.joins ++ [j], i.source.placeholders = [] → ∀ sub p,
      i.source = .subquery (.literal sub) p → ∀ bound, b.bindWithin depth sub = .ok bound →
      SameUnless sub.FoundLate sub.slotSchemas bound.slotSchemas := by
    intro i hi hnone sub p hs bound hsub
    rw [hs] at hnone
    exact sameUnless_of_bindWithin (hr.subquery i hi sub p hs) (List.append_eq_nil_iff.mp hnone).1
      hsub
  have hjoins := sameUnless_of_bindJoins_base hq hsources
    (fun i hi => hinner i (List.mem_append_left _ hi) (hsources i hi)) hrun
  refine (hjoins.append (sameUnless_of_bindSource (hinner j hlast hj) hj hfound)).mono ?_
  intro n hn hlate
  split at hlate
  · obtain ⟨i, hi, k, hk, h⟩ := hlate
    exact ⟨i, List.mem_append_left _ hi, k, hk, h⟩
  · rename_i hin
    have hslot : j.slot = q.slotSchemas.length := by
      rw [hq.layout.length_slotSchemas]
      have hslot := hr.layout.slot_eq q.joins.length j List.getElem?_concat_length
      rw [List.take_left] at hslot
      exact hslot
    rw [List.length_append, JoinSource.length_slotSchemas] at hn
    exact ⟨j, hlast, _, by omega, hlate, by omega⟩

end Binder
end StagedJoin
