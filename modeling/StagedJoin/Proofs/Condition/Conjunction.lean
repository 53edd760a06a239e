import StagedJoin.Proofs.Condition.Meaning

/-!
Conjunction of conditions. The parameters of both sides stand one behind the other, and
each side keeps its meaning with its own values: the conjunction means both, and the
literal `true` on one side adds nothing. Its greatest slot is that of one of the sides,
and where `and` is associative it does not matter how three conditions are grouped.
-/
namespace StagedJoin

universe u v

variable {Row : Type u} {D : Type v} {I : Interpretation Row D} {rows : Nat → Row}

theorem Interpretation.binary?_assoc {op : Operator}
    (h : ∀ x y z, I.binary op (I.binary op x y) z = I.binary op x (I.binary op y z))
    (a b c : Option D) :
    I.binary? op (I.binary? op a b) c = I.binary? op a (I.binary? op b c) := by
  cases a <;> cases b <;> cases c <;> simp [binary?, h]

theorem Interpretation.and_truth? (d? : Option D) : I.binary? .and d? (some I.truth) = d? := by
  cases d? with
  | none => rfl
  | some d => exact congrArg some (I.and_true d)

theorem Term.maxSlot?_shiftParams (count : Nat) (t : Term) :
    (t.shiftParams count).maxSlot? = t.maxSlot? := by
  rw [← max?_slots, slots_shiftParams, max?_slots]

namespace Condition

variable {a b c : Condition} {va vb vc : List Value}

/-- Every parameter that the term refers to is one of the condition. -/
def Closed (c : Condition) : Prop := ∀ i ∈ c.term.paramIndices, i < c.params.length

/-- The meaning of a condition, with a value for each of its parameters. -/
def meaning? (I : Interpretation Row D) (rows : Nat → Row) (values : List Value)
    (c : Condition) : Option D :=
  c.term.meaning? I rows values

theorem Closed.exists_meaning? (hc : c.Closed) (hv : vc.length = c.params.length) :
    ∃ d, c.meaning? I rows vc = some d := by
  apply Term.exists_meaning?
  intro i hi
  rw [hv]
  exact hc i hi

/-- More values behind those of its parameters do not matter. -/
theorem Closed.meaning?_append (ha : a.Closed) (hv : va.length = a.params.length)
    (vb : List Value) : a.meaning? I rows (va ++ vb) = a.meaning? I rows va := by
  have hvalues : ∀ i ∈ a.term.paramIndices, (va ++ vb)[id i]? = va[i]? := by
    intro i hi
    apply List.getElem?_append_left
    rw [hv]
    exact ha i hi
  have hid : a.term.rename id id id = a.term := a.term.rename_id
  calc a.term.meaning? I rows (va ++ vb)
      = (a.term.rename id id id).meaning? I rows (va ++ vb) := by rw [hid]
    _ = a.term.meaning? I rows va := a.term.meaning?_rename_values id id hvalues

/-- Renumbered parameters have the values behind those of the others. -/
theorem meaning?_shiftParams (t : Term) (va vb : List Value) :
    (t.shiftParams va.length).meaning? I rows (va ++ vb) = t.meaning? I rows vb := by
  have hvalues : ∀ i ∈ t.paramIndices, (va ++ vb)[i + va.length]? = vb[i]? := by
    intro i _
    rw [List.getElem?_append_right (by omega), Nat.add_sub_cancel]
  rw [Term.shiftParams_eq_rename]
  exact t.meaning?_rename_values id id hvalues

/-! ## Two conditions -/

/-- A conjunction is one of its sides where the other is the literal `true`, and otherwise the
sides joined by `and`. -/
theorem and_cases (a b : Condition) :
    (a = truth ∧ a.and b = b) ∨ (b = truth ∧ a.and b = a) ∨
      a.and b = ⟨.binary .and a.term (b.term.shiftParams a.params.length),
        a.params ++ b.params⟩ := by
  unfold Condition.and
  by_cases ha : a.isTruth
  · exact .inl ⟨eq_truth_of_isTruth ha, if_pos ha⟩
  · by_cases hb : b.isTruth
    · simp [ha, eq_truth_of_isTruth hb]
    · simp [ha, hb]

theorem params_and (a b : Condition) : (a.and b).params = a.params ++ b.params := by
  rcases and_cases a b with ⟨rfl, h⟩ | ⟨rfl, h⟩ | h <;> rw [h]
  · rfl
  · exact (List.append_nil _).symm

/-- A conjunction has the parameters of what stands behind. -/
theorem mem_params_and {param : Param} (natural : Condition) (h : param ∈ c.params) :
    param ∈ (natural.and c).params := by
  rw [params_and]
  exact List.mem_append_right _ h

theorem Closed.and (ha : a.Closed) (hb : b.Closed) : (a.and b).Closed := by
  rcases and_cases a b with ⟨-, h⟩ | ⟨-, h⟩ | h <;> rw [h]
  · exact hb
  · exact ha
  · intro i hi
    rw [Term.paramIndices, Term.shiftParams_eq_rename, Term.paramIndices_rename] at hi
    rw [List.length_append]
    rcases List.mem_append.mp hi with hi | hi
    · have hlt := ha i hi
      omega
    · obtain ⟨k, hk, rfl⟩ := List.mem_map.mp hi
      have hlt := hb k hk
      omega

/-- A conjunction means both sides, each with its own values. -/
theorem Closed.meaning?_and (ha : a.Closed) (hva : va.length = a.params.length)
    (hvb : vb.length = b.params.length) :
    (a.and b).meaning? I rows (va ++ vb) =
      I.binary? .and (a.meaning? I rows va) (b.meaning? I rows vb) := by
  rcases and_cases a b with ⟨rfl, h⟩ | ⟨rfl, h⟩ | h <;> rw [h]
  · have hnil : va = [] := List.length_eq_zero_iff.mp hva
    rw [hnil, List.nil_append]
    exact (I.truth_and? _).symm
  · have hnil : vb = [] := List.length_eq_zero_iff.mp hvb
    rw [hnil, List.append_nil]
    exact (I.and_truth? _).symm
  · have hleft : a.term.meaning? I rows (va ++ vb) = a.meaning? I rows va :=
      ha.meaning?_append hva vb
    have hright : (b.term.shiftParams a.params.length).meaning? I rows (va ++ vb) =
        b.meaning? I rows vb := by
      rw [← hva]
      exact meaning?_shiftParams b.term va vb
    rw [meaning?, Term.meaning?, hleft, hright]

theorem maxParamSlot?_append (ps qs : List Param) :
    maxParamSlot? (ps ++ qs) = maxSlot (maxParamSlot? ps) (maxParamSlot? qs) := by
  simp only [← max?_paramSlots, List.flatMap_append, max?_append]

theorem maxSlot?_and (a b : Condition) :
    (a.and b).maxSlot? = maxSlot a.maxSlot? b.maxSlot? := by
  rcases and_cases a b with ⟨rfl, h⟩ | ⟨rfl, h⟩ | h <;> rw [h]
  · cases b.maxSlot? <;> rfl
  · cases a.maxSlot? <;> rfl
  · simp only [maxSlot?, Term.maxSlot?, Term.maxSlot?_shiftParams, maxParamSlot?_append]
    ac_rfl

/-! ## Three conditions -/

/-- A conjunction of conditions that refer to parameters of their own is one itself and has the
parameters of both sides in order. With values for them it means both sides: its meaning is `and`
of theirs. The literal `true` is neutral on either side, the greatest slot is the greater of both,
and under an associative `and` the grouping of three conditions changes neither the parameters nor
the meaning. -/
theorem conjunction_means_both (a b c : Condition) (ha : a.Closed) (hb : b.Closed)
    (hc : c.Closed) :
    (a.and b).Closed ∧ (a.and b).params = a.params ++ b.params ∧
    (∀ {Row : Type u} {D : Type v} (I : Interpretation Row D) (rows : Nat → Row)
      (va vb : List Value), va.length = a.params.length → vb.length = b.params.length →
        ∃ d e, a.meaning? I rows va = some d ∧ b.meaning? I rows vb = some e ∧
          (a.and b).meaning? I rows (va ++ vb) = some (I.binary .and d e)) ∧
    (truth.and a = a ∧ a.and truth = a) ∧
    (a.and b).maxSlot? = max a.maxSlot? b.maxSlot? ∧
    ((a.and b).and c).params = (a.and (b.and c)).params ∧
    ∀ {Row : Type u} {D : Type v} (I : Interpretation Row D) (rows : Nat → Row)
      (va vb vc : List Value), va.length = a.params.length → vb.length = b.params.length →
        vc.length = c.params.length →
        (∀ x y z, I.binary .and (I.binary .and x y) z = I.binary .and x (I.binary .and y z)) →
          ∃ d, ((a.and b).and c).meaning? I rows (va ++ vb ++ vc) = some d ∧
            (a.and (b.and c)).meaning? I rows (va ++ vb ++ vc) = some d := by
  refine ⟨ha.and hb, params_and a b, ?_, ⟨truth_and a, and_truth a⟩, ?_, ?_, ?_⟩
  · intro Row D I rows va vb hva hvb
    obtain ⟨d, hd⟩ : ∃ d, a.meaning? I rows va = some d := ha.exists_meaning? hva
    obtain ⟨e, he⟩ : ∃ e, b.meaning? I rows vb = some e := hb.exists_meaning? hvb
    refine ⟨d, e, hd, he, ?_⟩
    rw [ha.meaning?_and hva hvb, hd, he]
    rfl
  · rw [maxSlot?_and, maxSlot_eq_max]
  · simp only [params_and, List.append_assoc]
  · intro Row D I rows va vb vc hva hvb hvc hassoc
    have hvab : (va ++ vb).length = (a.and b).params.length := by simp [params_and, hva, hvb]
    have hvbc : (vb ++ vc).length = (b.and c).params.length := by simp [params_and, hvb, hvc]
    have hvalues : (va ++ vb ++ vc).length = ((a.and b).and c).params.length := by
      simp [params_and, hva, hvb, hvc]
    obtain ⟨d, hd⟩ : ∃ d, ((a.and b).and c).meaning? I rows (va ++ vb ++ vc) = some d :=
      ((ha.and hb).and hc).exists_meaning? hvalues
    refine ⟨d, hd, ?_⟩
    rw [← hd, List.append_assoc, ha.meaning?_and hva hvbc, hb.meaning?_and hvb hvc,
      ← List.append_assoc, (ha.and hb).meaning?_and hvab hvc, ha.meaning?_and hva hvb,
      I.binary?_assoc hassoc]

end Condition

namespace Sample

/-- Reads a condition as the texts of its leaves from left to right, the literal `true` apart. -/
def leaves : Interpretation String (List String) where
  value
    | .boolean true => []
    | v => [v.text]
  field row name := [row ++ "." ++ name]
  binary _ left right := left ++ right
  not d := d
  isNil d := d
  list ds := ds.flatten
  true_and _ := rfl
  and_true := List.append_nil

def rowName (slot : Nat) : String := if slot = 0 then "post" else "comment"

/-- `$slot.id == ?0`, with a text for the parameter. -/
def idIs (slot : Nat) (text : String) : Condition :=
  ⟨.eq (.field slot "id") (.param 0), [⟨.literal (.string text), .any⟩]⟩

/-- The literal `true`, but with a parameter. -/
def trueBeside (text : String) : Condition := ⟨.truth, [⟨.literal (.string text), .any⟩]⟩

/-- Two equations and a `true` that is not the neutral condition. -/
theorem conjunction_means_both_ids :
    (idIs 0 "a").Closed ∧ (idIs 2 "b").Closed ∧ (trueBeside "c").Closed ∧
      ((idIs 0 "a").and (idIs 2 "b")).Closed ∧
      ((idIs 0 "a").and (idIs 2 "b")).maxSlot? = some 2 ∧
      ((idIs 0 "a").and (idIs 2 "b")).meaning? leaves rowName ([.string "a"] ++ [.string "b"]) =
        some ["post.id", "\"a\"", "comment.id", "\"b\""] ∧
      (((idIs 0 "a").and (idIs 2 "b")).and (trueBeside "c")).params.length = 3 ∧
      ∃ d, (((idIs 0 "a").and (idIs 2 "b")).and (trueBeside "c")).meaning? leaves rowName
          ([.string "a"] ++ [.string "b"] ++ [.string "c"]) = some d ∧
        ((idIs 0 "a").and ((idIs 2 "b").and (trueBeside "c"))).meaning? leaves rowName
          ([.string "a"] ++ [.string "b"] ++ [.string "c"]) = some d := by
  have hid : ∀ slot text, (idIs slot text).Closed := by
    intro slot text i hi
    cases List.mem_singleton.mp hi
    exact Nat.one_pos
  have htrue : (trueBeside "c").Closed := fun i hi => nomatch hi
  obtain ⟨hclosed, -, hmeaning, -, hslot, hparams, hgroup⟩ :=
    Condition.conjunction_means_both (idIs 0 "a") (idIs 2 "b") (trueBeside "c") (hid 0 "a")
      (hid 2 "b") htrue
  refine ⟨hid 0 "a", hid 2 "b", htrue, hclosed, hslot, ?_, hparams ▸ rfl, ?_⟩
  · obtain ⟨d, e, hd, he, h⟩ := hmeaning leaves rowName [.string "a"] [.string "b"] rfl rfl
    rw [h]
    cases hd
    cases he
    rfl
  · exact hgroup leaves rowName _ _ _ rfl rfl rfl List.append_assoc

end Sample

end StagedJoin
