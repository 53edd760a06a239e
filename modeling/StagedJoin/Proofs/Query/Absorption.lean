import StagedJoin.Proofs.Query.Layout

/-!
What an absorption leaves in place. The joins that are there stay, those of the
other query follow, moved behind the slots that are there, and no alias is lost.
-/
namespace StagedJoin

/-- `m` is `j` behind `offset` more slots; only an inferred alias may be gone. -/
def Join.MovesTo (offset : Nat) (j m : Join) : Prop :=
  m = j.shift offset ∨
    (∃ name, j.joinAlias = .inferred name) ∧ m = (j.shift offset).withoutAlias

theorem Join.MovesTo.source_eq {offset : Nat} {j m : Join} (h : j.MovesTo offset m) :
    m.source = j.source.shift offset := by
  rcases h with rfl | ⟨-, rfl⟩ <;> rfl

theorem Join.MovesTo.on_eq {offset : Nat} {j m : Join} (h : j.MovesTo offset m) :
    m.on = j.on.shift offset := by
  rcases h with rfl | ⟨-, rfl⟩ <;> rfl

theorem Join.MovesTo.slot_eq {offset : Nat} {j m : Join} (h : j.MovesTo offset m) :
    m.slot = j.slot + offset := by
  rcases h with rfl | ⟨-, rfl⟩ <;> rfl

theorem Join.MovesTo.arity_eq {offset : Nat} {j m : Join} (h : j.MovesTo offset m) :
    m.arity = j.arity := by
  rcases h with rfl | ⟨-, rfl⟩ <;> rfl

theorem Join.totalArity_of_movesTo {offset : Nat} {js ks : List Join}
    (h : List.Forall₂ (MovesTo offset) js ks) : totalArity ks = totalArity js := by
  induction h with
  | nil => rfl
  | cons hjk _ ih =>
    have harity := hjk.arity_eq
    rw [totalArity, totalArity, ih, harity]

namespace Query

variable {q r other : Query} {offset : Nat} {j : Join}

theorem movesTo_yieldAlias (aliases : OrderedMap Nat) (offset : Nat) (j : Join) :
    j.MovesTo offset (yieldAlias aliases (j.shift offset)) := by
  unfold yieldAlias
  split
  · rename_i name hname
    split
    · exact .inr ⟨⟨name, hname⟩, rfl⟩
    · exact .inl rfl
  · exact .inl rfl

/-! ## Appending -/

theorem extends_registerAlias {aliases aliases' : OrderedMap Nat} {slot : Nat}
    {name? : Option String} (h : registerAlias aliases slot name? = .ok aliases') :
    aliases'.Extends aliases := by
  obtain ⟨hfree, rfl⟩ := registerAlias_eq_ok_iff.mp h
  cases name? with
  | none => exact OrderedMap.Extends.refl aliases
  | some name => exact OrderedMap.extends_insert (hfree name rfl) slot

/-- The joins of a list follow, moved; nothing that was there changes. -/
theorem appendShifted_spec {js : List Join} (h : q.appendShifted offset js = .ok r) :
    r.base = q.base ∧ r.aliases.Extends q.aliases ∧
      ∃ moved, r.joins = q.joins ++ moved ∧ List.Forall₂ (Join.MovesTo offset) js moved := by
  induction js generalizing q with
  | nil =>
    cases h
    exact ⟨rfl, OrderedMap.Extends.refl _, [], (List.append_nil _).symm, .nil⟩
  | cons j rest ih =>
    obtain ⟨q', hq', hr⟩ := appendShifted_cons_eq_ok_iff.mp h
    obtain ⟨-, aliases, haliases, rfl⟩ := append_eq_ok_iff.mp hq'
    obtain ⟨hbase, hext, moved, hjoins, hmoved⟩ := ih hr
    refine ⟨hbase, hext.trans (extends_registerAlias haliases),
      yieldAlias q.aliases (j.shift offset) :: moved, ?_,
      .cons (movesTo_yieldAlias q.aliases offset j) hmoved⟩
    rw [hjoins, List.append_assoc, List.singleton_append]

/-! ## Names of the base -/

theorem extends_shareBaseAliases {aliases aliases' : OrderedMap Nat}
    {entries : List (String × Nat)} (h : shareBaseAliases aliases entries = .ok aliases') :
    aliases'.Extends aliases := by
  induction entries generalizing aliases with
  | nil =>
    cases h
    exact OrderedMap.Extends.refl _
  | cons e rest ih =>
    obtain ⟨name, slot⟩ := e
    rw [shareBaseAliases] at h
    split at h
    · exact ih h
    · split at h
      · exact ih h
      · cases h
      · rename_i hnone
        exact (ih h).trans (OrderedMap.extends_insert hnone 0)

/-- An absorption keeps the base, the aliases and the joins, and moves the other joins. -/
theorem absorb_spec (h : q.absorb other = .ok r) :
    r.base = q.base ∧ r.aliases.Extends q.aliases ∧
      ∃ moved, r.joins = q.joins ++ moved ∧
        List.Forall₂ (Join.MovesTo (q.slotCount - 1)) other.joins moved := by
  obtain ⟨aliases, haliases, h⟩ := absorb_eq_ok_iff.mp h
  obtain ⟨hbase, hext, hjoins⟩ := appendShifted_spec h
  exact ⟨hbase, hext.trans (extends_shareBaseAliases haliases), hjoins⟩

/-- The base is shared; all other slots of both queries are there. -/
theorem slotCount_absorb (h : q.absorb other = .ok r) :
    r.slotCount = q.slotCount + (other.slotCount - 1) := by
  obtain ⟨-, -, moved, hjoins, hmoved⟩ := absorb_spec h
  have harity := Join.totalArity_of_movesTo hmoved
  rw [slotCount, slotCount, slotCount, hjoins, Join.totalArity_append, harity]
  omega

end Query

end StagedJoin
