import StagedJoin.Json.Decode
import StagedJoin.Proofs.OrderedMap
import StagedJoin.Proofs.Outcome

/-!
Reading data from documents. A list is read item by item, a case by its name; a record
that allows no unknown keys is read only from fields with known names, each of which
is given at most once and is therefore found.
-/
namespace StagedJoin.Json

variable {α : Type} {decode : Decoder α} {depth : Nat} {j : Json}

/-! ## Lists -/

theorem asList?_array_eq_some_iff {items : List Json} {as : List α} :
    asList? decode (depth + 1) (.array items) = some as ↔
      List.Forall₂ (fun j a => decode depth j = some a) items as :=
  mapM_eq_some_iff

/-- A list that has been written is read back if its items are. -/
theorem asList?_ofList {encode : α → Json} {as : List α}
    (h : ∀ a ∈ as, decode depth (encode a) = some a) :
    asList? decode (depth + 1) (ofList encode as) = some as := by
  rw [ofList, asList?_array_eq_some_iff, List.forall₂_map_left_iff, List.forall₂_same]
  exact h

/-- A list with an item that cannot be read cannot be read. -/
theorem asList?_eq_none {items : List Json} (hj : j ∈ items) (h : ∀ depth, decode depth j = none)
    (depth : Nat) : asList? decode depth (.array items) = none := by
  cases depth with
  | zero => rfl
  | succ depth =>
    rw [Option.eq_none_iff_forall_ne_some]
    intro as has
    rw [asList?_array_eq_some_iff] at has
    induction has with
    | nil => cases hj
    | cons ha _ ih =>
      rcases List.mem_cons.mp hj with rfl | hj
      · cases (h depth).symm.trans ha
      · exact ih hj

/-! ## Cases -/

/-- The document stands for the case with this name: it is the name, or it has it before a
content. -/
inductive Names : Option String → Json → Prop
  | alone (name : Option String) : Names name (.string name)
  | before (name : Option String) (content : Json) : Names name (.object [(name, content)])

theorem asName?_eq_none {ofName? : String → Option α} {name : Option String} (hj : Names name j)
    (h : ∀ n, name = some n → ofName? n = none) (depth : Nat) :
    asName? ofName? depth j = none := by
  cases name with
  | none => cases hj <;> rfl
  | some name =>
    have hname := h name rfl
    cases hj with
    | alone => exact hname
    | before content =>
      cases depth with
      | zero => rfl
      | succ depth =>
        show (if isEmptyContent (some (depth, content)) then ofName? name else none) = none
        rw [hname, ite_self]

/-- A name that is not among those of the cases cannot be read. -/
theorem asName?_eq_none_of_not_mem {known : List α} {label : α → String}
    {ofName? : String → Option α} (hofName : ∀ n, ofName? n = known.find? (label · = n))
    {name : Option String} (hj : Names name j) (h : name ∉ (known.map label).map some)
    (depth : Nat) : asName? ofName? depth j = none := by
  apply asName?_eq_none hj
  rintro n rfl
  rw [hofName, List.find?_eq_none]
  intro a ha hlabel
  apply h
  rw [← of_decide_eq_true hlabel]
  exact List.mem_map_of_mem (List.mem_map_of_mem ha)

/-! ## Records -/

theorem namedFields?_eq_some_iff {fields : List (Option String × Json)}
    {given : List (String × Json)} :
    namedFields? fields = some given ↔ fields = given.map fun f => (some f.1, f.2) := by
  have hfield : (fun (f : Option String × Json) (g : String × Json) =>
      f.1.map (·, f.2) = some g) = fun f g => f = (some g.1, g.2) := by
    funext ⟨key, j⟩ ⟨name, j'⟩
    cases key <;> simp
  rw [namedFields?, mapM_eq_some_iff, hfield, ← List.forall₂_eq_eq_eq, List.forall₂_map_right_iff]

theorem distinctNames_iff {given : List (String × Json)} :
    distinctNames given = true ↔ (given.map Prod.fst).Nodup := by
  induction given with
  | nil => simp [distinctNames]
  | cons f given ih =>
    have hf : given.any (·.1 = f.1) = false ↔ f.1 ∉ given.map Prod.fst := by
      simp only [List.any_eq_false, decide_eq_true_eq, List.mem_map, not_exists, not_and]
    rw [distinctNames, Bool.and_eq_true, Bool.not_eq_true', hf, ih, List.map_cons,
      List.nodup_cons]

/-- Fields that are read have known names and are found under them. -/
theorem asFields?_object {names : List String} {fields : List (Option String × Json)} {f : Fields}
    (h : asFields? names false depth (.object fields) = some f) {key : Option String}
    (hmem : (key, j) ∈ fields) : ∃ name ∈ names, key = some name ∧ f.get? name = some j := by
  cases depth with
  | zero => cases h
  | succ depth =>
    simp only [asFields?, Option.bind_eq_bind, Option.bind_eq_some_iff, Bool.false_or] at h
    obtain ⟨given, hgiven, h⟩ := h
    split at h
    · rename_i hknown
      cases h
      rw [Bool.and_eq_true, decide_eq_true_eq] at hknown
      -- No field is dropped for its name.
      have hnames := List.length_filter_eq_length_iff.mp hknown.1
      have hall := List.filter_eq_self.mpr hnames
      rw [hall] at hknown
      rw [namedFields?_eq_some_iff] at hgiven
      subst hgiven
      obtain ⟨g, hg, hfield⟩ := List.mem_map.mp hmem
      cases hfield
      refine ⟨g.1, List.contains_iff_mem.mp (hnames g hg), rfl, ?_⟩
      show (given.filter fun f => names.contains f.1).lookup g.1 = some g.2
      rw [hall]
      exact OrderedMap.lookup_eq_some_of_mem (distinctNames_iff.mp hknown.2) hg
    · cases h

/-- A record that has been written with its keys is read back. -/
theorem asFields?_ofPairs {names : List String} {pairs : List (String × Json)}
    (hnames : pairs.map Prod.fst = names) (h : names.Nodup) (depth : Nat) :
    asFields? names false (depth + 1) (ofPairs pairs) = some ⟨true, pairs, depth⟩ := by
  subst hnames
  have hgiven : namedFields? (pairs.map fun f => (some f.1, f.2)) = some pairs :=
    namedFields?_eq_some_iff.mpr rfl
  have hall : pairs.filter (fun f => (pairs.map Prod.fst).contains f.1) = pairs := by
    rw [List.filter_eq_self]
    intro f hf
    exact List.contains_iff_mem.mpr (List.mem_map_of_mem hf)
  simp only [ofPairs, asFields?, hgiven, Option.bind_eq_bind, Option.bind_some, hall,
    distinctNames_iff.mpr h]
  rfl

end StagedJoin.Json
