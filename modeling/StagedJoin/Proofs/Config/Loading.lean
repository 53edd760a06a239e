import Mathlib.Data.List.Induction
import Mathlib.Data.List.Nodup
import StagedJoin.Config.Json
import StagedJoin.Failure.Wording
import StagedJoin.Proofs.Json.Decode
import StagedJoin.Proofs.Json.RoundTrip

/-!
Loading settings. They are valid if no option has the name of a core option or of one
before it, and the first that has is reported. Settings that have been written are loaded
again if they are valid, and a document with unknown keys or unknown cases is refused.
-/
namespace StagedJoin

variable {c : Config} {options front back : List OptionSpec} {spec : OptionSpec}

namespace Config

/-! ## Names of options -/

/-- The names of the core options and of the given ones. -/
def takenNames (options : List OptionSpec) : List String :=
  JoinOptions.coreNames ++ options.map (·.name)

/-- What is reported for an option whose name is taken. -/
def takenFault (name : String) : ConfigFault :=
  if name ∈ JoinOptions.coreNames then .reservedOption name else .repeatedOption name

theorem names_optionTable (c : Config) : c.optionTable.map (·.name) = takenNames c.options := by
  rw [optionTable, List.map_append]
  rfl

theorem takenNames_concat (front : List OptionSpec) (spec : OptionSpec) :
    takenNames (front ++ [spec]) = takenNames front ++ [spec.name] := by
  rw [takenNames, List.map_append, List.map_singleton, ← List.append_assoc, takenNames]

theorem nodup_takenNames_concat :
    (takenNames (front ++ [spec])).Nodup ↔
      (takenNames front).Nodup ∧ spec.name ∉ takenNames front := by
  rw [takenNames_concat, ← List.concat_eq_append, List.nodup_concat, and_comm]

theorem checkNames_cons (seen : List String) (spec : OptionSpec) (rest : List OptionSpec) :
    checkNames seen (spec :: rest) =
      if spec.name ∈ JoinOptions.coreNames ++ seen then .error (takenFault spec.name)
      else checkNames (spec.name :: seen) rest := by
  by_cases hcore : spec.name ∈ JoinOptions.coreNames <;> by_cases hseen : spec.name ∈ seen <;>
    simp [checkNames, takenFault, hcore, hseen]

/-- Options in front whose names are free are passed. -/
theorem checkNames_append (h : (takenNames front).Nodup) (rest : List OptionSpec) :
    checkNames [] (front ++ rest) = checkNames (front.map (·.name)).reverse rest := by
  induction front using List.reverseRecOn generalizing rest with
  | nil => rfl
  | append_singleton front spec ih =>
    obtain ⟨hfront, hspec⟩ := nodup_takenNames_concat.mp h
    have hfree : spec.name ∉ JoinOptions.coreNames ++ (front.map (·.name)).reverse := by
      simpa [takenNames] using hspec
    rw [List.append_assoc, ih hfront, List.singleton_append, checkNames_cons, if_neg hfree,
      List.map_append, List.reverse_append]
    rfl

theorem checkNames_taken (h : (takenNames front).Nodup) (hspec : spec.name ∈ takenNames front) :
    checkNames [] (front ++ spec :: back) = .error (takenFault spec.name) := by
  have htaken : spec.name ∈ JoinOptions.coreNames ++ (front.map (·.name)).reverse := by
    simpa [takenNames] using hspec
  rw [checkNames_append h, checkNames_cons, if_pos htaken]

/-- The names of all options are free, or there is a first one that is taken. -/
theorem nodup_or_first_taken (options : List OptionSpec) : (takenNames options).Nodup ∨
    ∃ front spec back, options = front ++ spec :: back ∧ (takenNames front).Nodup ∧
      spec.name ∈ takenNames front := by
  induction options using List.reverseRecOn with
  | nil => exact .inl (by decide)
  | append_singleton options spec ih =>
    rcases ih with hfree | ⟨front, taken, back, rfl, hfront, htaken⟩
    · by_cases hspec : spec.name ∈ takenNames options
      · exact .inr ⟨options, spec, [], rfl, hfree, hspec⟩
      · exact .inl (nodup_takenNames_concat.mpr ⟨hfree, hspec⟩)
    · exact .inr ⟨front, taken, back ++ [spec], by simp, hfront, htaken⟩

theorem validate_of_nodup (h : (takenNames c.options).Nodup) : c.validate = .ok () := by
  have hcheck := checkNames_append h []
  rw [List.append_nil] at hcheck
  rw [validate, hcheck]
  rfl

theorem validate_of_taken (hoptions : c.options = front ++ spec :: back)
    (hfront : (takenNames front).Nodup) (hspec : spec.name ∈ takenNames front) :
    c.validate = .error (.config (takenFault spec.name)) := by
  rw [validate, hoptions, checkNames_taken hfront hspec]
  rfl

theorem validate_eq_ok_iff : c.validate = .ok () ↔ (takenNames c.options).Nodup := by
  constructor
  · intro h
    rcases nodup_or_first_taken c.options with hfree | ⟨front, spec, back, hoptions, hfront, hspec⟩
    · exact hfree
    · cases h.symm.trans (validate_of_taken hoptions hfront hspec)
  · exact validate_of_nodup

theorem validate_eq_error_iff {failure : Failure} :
    c.validate = .error failure ↔ ∃ front spec back, c.options = front ++ spec :: back ∧
      (takenNames front).Nodup ∧ spec.name ∈ takenNames front ∧
      failure = .config (takenFault spec.name) := by
  constructor
  · intro h
    rcases nodup_or_first_taken c.options with hfree | ⟨front, spec, back, hoptions, hfront, hspec⟩
    · cases h.symm.trans (validate_of_nodup hfree)
    · cases h.symm.trans (validate_of_taken hoptions hfront hspec)
      exact ⟨front, spec, back, hoptions, hfront, hspec, rfl⟩
  · rintro ⟨front, spec, back, hoptions, hfront, hspec, rfl⟩
    exact validate_of_taken hoptions hfront hspec

end Config

/-! ## Written names -/

theorem LiteralKind.ofName?_name (k : LiteralKind) : ofName? k.name = some k := by
  cases k <;> decide

theorem LiteralKind.ofJson?_toJson (k : LiteralKind) (depth : Nat) :
    ofJson? depth k.toJson = some k :=
  k.ofName?_name

theorem Qualifier.ofJson?_toJson (q : Qualifier) (depth : Nat) :
    ofJson? depth q.toJson = some q :=
  q.ofName?_name

/-! ## Written settings -/

namespace OptionSpec

def keys : List String := ["name", "accepts", "interpolated"]

theorem nodup_keys : keys.Nodup := by decide

theorem ofJson?_eq_some_iff {depth : Nat} {j : Json} {spec : OptionSpec} :
    ofJson? depth j = some spec ↔ ∃ f, Json.asFields? keys false depth j = some f ∧
      f.required? "name" Json.asString? = some spec.name ∧
      f.defaulted? "accepts" [] (Json.asList? LiteralKind.ofJson?) = some spec.accepts ∧
      f.defaulted? "interpolated" false Json.asBool? = some spec.interpolated ∧
      spec.isCondition = false := by
  obtain ⟨name, accepts, interpolated, isCondition⟩ := spec
  simp only [ofJson?, keys, Option.bind_eq_bind, Option.bind_eq_some_iff, Option.pure_def,
    Option.some.injEq, OptionSpec.mk.injEq]
  constructor
  · rintro ⟨f, hf, _, hname, _, haccepts, _, hinterpolated, rfl, rfl, rfl, rfl⟩
    exact ⟨f, hf, hname, haccepts, hinterpolated, rfl⟩
  · rintro ⟨f, hf, hname, haccepts, hinterpolated, rfl⟩
    exact ⟨f, hf, _, hname, _, haccepts, _, hinterpolated, rfl, rfl, rfl, rfl⟩

/-- A specification that is no condition is read back. -/
theorem ofJson?_toJson {spec : OptionSpec} (h : spec.isCondition = false) (depth : Nat) :
    ofJson? (depth + 2) spec.toJson = some spec := by
  have haccepts : Json.asList? LiteralKind.ofJson? (depth + 1)
      (.ofList LiteralKind.toJson spec.accepts) = some spec.accepts :=
    Json.asList?_ofList fun k _ => k.ofJson?_toJson depth
  have hfields : Json.asFields? keys false (depth + 2) spec.toJson = some
      ⟨true, [("name", .ofString spec.name), ("accepts", .ofList LiteralKind.toJson spec.accepts),
        ("interpolated", .boolean spec.interpolated)], depth + 1⟩ := by
    apply Json.asFields?_ofPairs
    · rfl
    · exact nodup_keys
  exact ofJson?_eq_some_iff.mpr ⟨_, hfields, rfl, haccepts, rfl, h⟩

theorem plain_toJson (spec : OptionSpec) : spec.toJson.Plain := by
  apply Json.Plain.object
  simp only [List.forall_mem_cons]
  refine ⟨.string _, .array ?_, .boolean _, List.forall_mem_nil _⟩
  intro j hj
  obtain ⟨k, -, rfl⟩ := List.mem_map.mp hj
  exact .string _

end OptionSpec

namespace Config

def keys : List String := ["options", "qualifiers"]

theorem nodup_keys : keys.Nodup := by decide

theorem ofJson?_eq_some_iff {depth : Nat} {j : Json} :
    ofJson? depth j = some c ↔ ∃ f, Json.asFields? keys false depth j = some f ∧
      f.defaulted? "options" [] (Json.asList? OptionSpec.ofJson?) = some c.options ∧
      f.defaulted? "qualifiers" none (Json.asOption? (Json.asList? Qualifier.ofJson?)) =
        some c.qualifiers := by
  obtain ⟨options, qualifiers⟩ := c
  simp only [ofJson?, keys, Option.bind_eq_bind, Option.bind_eq_some_iff, Option.pure_def,
    Option.some.injEq, Config.mk.injEq]
  constructor
  · rintro ⟨f, hf, _, hoptions, _, hqualifiers, rfl, rfl⟩
    exact ⟨f, hf, hoptions, hqualifiers⟩
  · rintro ⟨f, hf, hoptions, hqualifiers⟩
    exact ⟨f, hf, _, hoptions, _, hqualifiers, rfl, rfl⟩

/-- Settings without conditions are read back; where no qualifiers are given there are none. -/
theorem ofJson?_toJson (h : ∀ spec ∈ c.options, spec.isCondition = false) (depth : Nat) :
    ofJson? (depth + 4) c.toJson = some c := by
  have hoptions : Json.asList? OptionSpec.ofJson? (depth + 3)
      (.ofList OptionSpec.toJson c.options) = some c.options :=
    Json.asList?_ofList fun spec hspec => OptionSpec.ofJson?_toJson (h spec hspec) depth
  have hqualifiers : Json.asOption? (Json.asList? Qualifier.ofJson?) (depth + 3)
      (.ofOption (.ofList Qualifier.toJson) c.qualifiers) = some c.qualifiers := by
    cases c.qualifiers with
    | none => rfl
    | some qs =>
      have hqs : Json.asList? Qualifier.ofJson? (depth + 3) (.ofList Qualifier.toJson qs) =
          some qs :=
        Json.asList?_ofList fun q _ => q.ofJson?_toJson (depth + 2)
      show (Json.asList? Qualifier.ofJson? (depth + 3) (.ofList Qualifier.toJson qs)).map some = _
      rw [hqs]
      rfl
  have hfields : Json.asFields? keys false (depth + 4) c.toJson = some
      ⟨true, [("options", .ofList OptionSpec.toJson c.options),
        ("qualifiers", .ofOption (.ofList Qualifier.toJson) c.qualifiers)], depth + 3⟩ := by
    apply Json.asFields?_ofPairs
    · rfl
    · exact nodup_keys
  exact ofJson?_eq_some_iff.mpr ⟨_, hfields, hoptions, hqualifiers⟩

theorem plain_toJson (c : Config) : c.toJson.Plain := by
  apply Json.Plain.object
  simp only [List.forall_mem_cons]
  refine ⟨.array ?_, ?_, List.forall_mem_nil _⟩
  · intro j hj
    obtain ⟨spec, -, rfl⟩ := List.mem_map.mp hj
    exact spec.plain_toJson
  · cases c.qualifiers with
    | none => exact .null
    | some qs =>
      apply Json.Plain.array
      intro j hj
      obtain ⟨q, -, rfl⟩ := List.mem_map.mp hj
      exact .string _

/-- Settings that are read from what has been written are the same, if they are valid. -/
theorem ofText_of_toJson {text : String} (hparse : Json.parse text = some c.toJson)
    (h : ∀ spec ∈ c.options, spec.isCondition = false) :
    ofText text = c.validate.map fun _ => c := by
  have hread : ofJson? Decoder.maxDepth c.toJson = some c := ofJson?_toJson h 123
  rw [ofText, hparse]
  show ofDocument c.toJson = _
  simp only [ofDocument, hread]
  cases c.validate <;> rfl

end Config

/-! ## Foreign documents -/

/-- A specification with a key that is not one of its own, or with a literal kind that is none: given
by its keys, or by its parts in order. -/
inductive OptionSpec.Foreign : Json → Prop
  | key {key : Option String} {j : Json} {fields : List (Option String × Json)} :
      (key, j) ∈ fields → key ∉ OptionSpec.keys.map some → Foreign (.object fields)
  | kind {kind : Option String} {j : Json} {kinds : List Json}
      {fields : List (Option String × Json)} :
      (some "accepts", .array kinds) ∈ fields → j ∈ kinds → Json.Names kind j →
      kind ∉ (LiteralKind.all.map LiteralKind.name).map some → Foreign (.object fields)
  | kindInOrder {kind : Option String} {name j : Json} {kinds rest : List Json} :
      j ∈ kinds → Json.Names kind j →
      kind ∉ (LiteralKind.all.map LiteralKind.name).map some →
      Foreign (.array (name :: .array kinds :: rest))

/-- Settings with a key that is not one of their own, with a foreign specification, or with a
qualifier that is none. -/
inductive Config.Foreign : List (Option String × Json) → Prop
  | key {key : Option String} {j : Json} {fields : List (Option String × Json)} :
      (key, j) ∈ fields → key ∉ Config.keys.map some → Foreign fields
  | option {j : Json} {specs : List Json} {fields : List (Option String × Json)} :
      (some "options", .array specs) ∈ fields → j ∈ specs → OptionSpec.Foreign j → Foreign fields
  | qualifier {name : Option String} {j : Json} {qualifiers : List Json}
      {fields : List (Option String × Json)} :
      (some "qualifiers", .array qualifiers) ∈ fields → j ∈ qualifiers → Json.Names name j →
      name ∉ (Qualifier.all.map Qualifier.name).map some → Foreign fields

/-- A foreign specification cannot be read. -/
theorem OptionSpec.Foreign.ofJson?_eq_none {j : Json} (h : Foreign j) (depth : Nat) :
    ofJson? depth j = none := by
  rw [Option.eq_none_iff_forall_ne_some]
  intro spec hspec
  obtain ⟨f, hf, -, haccepts, -⟩ := ofJson?_eq_some_iff.mp hspec
  -- The literal kinds are all known, wherever they have been given.
  have hknown : ∀ kinds, f.get? "accepts" = some (.array kinds) → ∀ j ∈ kinds, ∀ kind,
      Json.Names kind j → kind ∈ (LiteralKind.all.map LiteralKind.name).map some := by
    intro kinds hget j hj kind hname
    by_contra hkind
    have hnone : Json.asList? LiteralKind.ofJson? f.depth (.array kinds) = none :=
      Json.asList?_eq_none hj (Json.asName?_eq_none_of_not_mem (fun _ => rfl) hname hkind) f.depth
    rw [Json.Fields.defaulted?, hget] at haccepts
    cases hnone.symm.trans haccepts
  cases h with
  | key hmem hkey =>
    obtain ⟨name, hname, rfl, -⟩ := Json.asFields?_object hf hmem
    exact hkey (List.mem_map_of_mem hname)
  | kind hmem hj hname hkind =>
    obtain ⟨_, -, hkey, hget⟩ := Json.asFields?_object hf hmem
    cases hkey
    exact hkind (hknown _ hget _ hj _ hname)
  | @kindInOrder kind _ j kinds rest hj hname hkind =>
    have hget : f.get? "accepts" = some (.array kinds) := by
      cases depth with
      | zero => cases hf
      | succ depth =>
        rw [Json.asFields?] at hf
        split at hf
        · cases hf
          rfl
        · cases hf
    exact hkind (hknown _ hget _ hj _ hname)

/-- Foreign settings cannot be read. -/
theorem Config.Foreign.ofJson?_eq_none {fields : List (Option String × Json)} (h : Foreign fields)
    (depth : Nat) : ofJson? depth (.object fields) = none := by
  rw [Option.eq_none_iff_forall_ne_some]
  intro c hc
  obtain ⟨f, hf, hoptions, hqualifiers⟩ := ofJson?_eq_some_iff.mp hc
  cases h with
  | key hmem hkey =>
    obtain ⟨name, hname, rfl, -⟩ := Json.asFields?_object hf hmem
    exact hkey (List.mem_map_of_mem hname)
  | option hmem hj hforeign =>
    obtain ⟨_, -, hkey, hget⟩ := Json.asFields?_object hf hmem
    cases hkey
    rw [Json.Fields.defaulted?, hget] at hoptions
    have hnone := Json.asList?_eq_none hj hforeign.ofJson?_eq_none f.depth
    cases hnone.symm.trans hoptions
  | @qualifier name j qualifiers _ hmem hj hname hqualifier =>
    obtain ⟨_, -, hkey, hget⟩ := Json.asFields?_object hf hmem
    cases hkey
    rw [Json.Fields.defaulted?, hget] at hqualifiers
    have hnone : Json.asList? Qualifier.ofJson? f.depth (.array qualifiers) = none :=
      Json.asList?_eq_none hj (Json.asName?_eq_none_of_not_mem (fun _ => rfl) hname hqualifier)
        f.depth
    have hoption : (Json.asList? Qualifier.ofJson? f.depth (.array qualifiers)).map some =
        some c.qualifiers := hqualifiers
    rw [hnone] at hoption
    cases hoption

namespace Config

theorem ofText_eq_unreadable {text : String} {fields : List (Option String × Json)}
    (hparse : Json.parse text = some (.object fields)) (h : Foreign fields) :
    ofText text = .error (.config .unreadable) := by
  rw [ofText, hparse]
  show ofDocument (.object fields) = _
  rw [ofDocument, h.ofJson?_eq_none]

/-! ## Loading -/

/-- Loading settings. They are valid if the names in the table of options differ; if not, what is
reported is the first option with the name of a core option or of one before it. Settings without
conditions are read from their text, and from every text of the same document they are loaded as
they are, or not at all where they are not valid. A text that holds an object with an unknown key,
literal kind or qualifier is refused. All that is reported has one code. -/
theorem loading_exact :
    (∀ c : Config, c.validate = .ok () ↔ (c.optionTable.map (·.name)).Nodup) ∧
    (∀ (c : Config) failure, c.validate = .error failure ↔
      ∃ front spec back, c.options = front ++ spec :: back ∧ (takenNames front).Nodup ∧
        spec.name ∈ takenNames front ∧ failure = .config (takenFault spec.name)) ∧
    (∀ c : Config, (∀ spec ∈ c.options, spec.isCondition = false) →
      Json.parse c.toJson.text = some c.toJson ∧
      ∀ text, Json.parse text = some c.toJson → ofText text = c.validate.map fun _ => c) ∧
    (∀ text fields, Json.parse text = some (.object fields) → Foreign fields →
      ofText text = .error (.config .unreadable)) ∧
    ∀ fault, (Failure.config fault).code = "CONFIG_001" := by
  refine ⟨?_, fun _ _ => validate_eq_error_iff, ?_, fun _ _ => ofText_eq_unreadable,
    fun _ => rfl⟩
  · intro c
    rw [names_optionTable]
    exact validate_eq_ok_iff
  · intro c h
    exact ⟨c.plain_toJson.parse_text, fun text hparse => ofText_of_toJson hparse h⟩

end Config

namespace Sample

/-- An option `lock`, and two qualifiers. -/
def lockSettings : Config where
  options := [{ name := "lock", accepts := [.string], interpolated := true }]
  qualifiers := some [.inner, .leftLateral]

/-- The same option twice. -/
def lockTwice : Config := { options := lockSettings.options ++ lockSettings.options }

/-- Valid settings are loaded from their text; those with an option twice and those with an unknown
qualifier are not. -/
theorem loading_exact_lock :
    Config.ofText lockSettings.toJson.text = .ok lockSettings ∧
    Config.ofText lockTwice.toJson.text = .error (.config (.repeatedOption "lock")) ∧
    Config.ofText "\x7b\"qualifiers\":[\"sideways\"]\x7d" = .error (.config .unreadable) := by
  obtain ⟨hvalid, hinvalid, hwritten, hforeign, -⟩ := Config.loading_exact
  refine ⟨?_, ?_, ?_⟩
  · obtain ⟨hparse, hload⟩ := hwritten lockSettings (by decide)
    rw [hload _ hparse, (hvalid lockSettings).mpr (by decide)]
    rfl
  · obtain ⟨hparse, hload⟩ := hwritten lockTwice (by decide)
    have hfault : lockTwice.validate = .error (.config (.repeatedOption "lock")) := by
      rw [hinvalid]
      exact ⟨lockSettings.options, _, [], rfl, by decide, by decide, rfl⟩
    rw [hload _ hparse, hfault]
    rfl
  · have hparse : Json.parse "\x7b\"qualifiers\":[\"sideways\"]\x7d" =
        some (.object [(some "qualifiers", .array [.string (some "sideways")])]) := by cbv
    exact hforeign _ _ hparse
      (.qualifier List.mem_cons_self List.mem_cons_self (.alone _) (by decide))

end Sample

end StagedJoin
