import StagedJoin.ColumnType.Parser
import StagedJoin.Proofs.Text.Trimming

/-!
Names of column types. A name says how many arrays there are and which plain type is
inside them; blanks around each part and the case of the plain name do not matter. Every
text leads to one innermost part: if that is a plain name the text is read as its type in
the arrays around it, and if not it is answered with that part.
-/
namespace StagedJoin.ColumnType

open Text (Blank Trimmed)

variable {s s' element leaf : String} {depth : Nat} {t : ColumnType}

/-! ## Plain names -/

/-- The names of a type that is no array, in lower case. -/
def plainNames : ColumnType → List String
  | .any => ["any"]
  | .boolean => ["boolean", "bool"]
  | .integer => ["integer", "int"]
  | .float => ["float"]
  | .decimal => ["decimal"]
  | .string => ["string", "text", "utf8"]
  | .binary => ["binary", "blob"]
  | .uuid => ["uuid", "binary_id"]
  | .date => ["date"]
  | .time => ["time"]
  | .dateTime => ["datetime", "utc_datetime", "naive_datetime"]
  | .id => ["id"]
  | .map => ["map"]
  | .array _ => []

theorem plain?_of_mem {name : String} (h : name ∈ t.plainNames) : plain? name = some t := by
  have hall : (t.plainNames.all fun name => decide (plain? name = some t)) = true := by
    cases t <;> rfl
  exact of_decide_eq_true (List.all_eq_true.mp hall name h)

theorem mem_plainNames_of_plain? {name : String} (h : plain? name = some t) :
    name ∈ t.plainNames := by
  unfold plain? at h
  -- One branch for each type that is no array.
  iterate 13
    rcases ite_eq_iff.mp h with ⟨hname, ht⟩ | ⟨-, h⟩
    · cases ht
      simpa [plainNames] using hname
  cases h

theorem plain?_eq_some_iff {name : String} : plain? name = some t ↔ name ∈ t.plainNames :=
  ⟨mem_plainNames_of_plain?, plain?_of_mem⟩

/-- Plain names have neither blanks nor brackets. -/
theorem not_blank_of_plainNames {name : String} (h : name ∈ t.plainNames) :
    ∀ c ∈ name.toList, Text.isBlank c = false ∧ c ≠ '<' := by
  have hall : (t.plainNames.all fun name =>
      name.toList.all fun c => !Text.isBlank c && c != '<') = true := by
    cases t <;> rfl
  intro c hc
  simpa using List.all_eq_true.mp (List.all_eq_true.mp hall name h) c hc

theorem toList_toLower (s : String) : s.toLower.toList = s.toList.map Char.toLower :=
  String.toList_map

theorem toLower_of_plainNames {name : String} (h : name ∈ t.plainNames) :
    name.toLower = name := by
  have hall : (t.plainNames.all fun name =>
      name.toList.map Char.toLower == name.toList) = true := by
    cases t <;> rfl
  have hchars := eq_of_beq (List.all_eq_true.mp hall name h)
  rw [← String.toList_inj, toList_toLower, hchars]

/-- Nor have they in another case. -/
theorem not_blank_of_toLower (h : s.toLower ∈ t.plainNames) :
    ∀ c ∈ s.toList, Text.isBlank c = false ∧ c ≠ '<' := by
  intro c hc
  have hlower : c.toLower ∈ s.toLower.toList := by
    rw [toList_toLower]
    exact List.mem_map_of_mem hc
  have hplain := not_blank_of_plainNames h _ hlower
  refine ⟨?_, ?_⟩
  · by_contra hblank
    rw [Bool.not_eq_false] at hblank
    rw [Text.toLower_of_isBlank hblank, hblank] at hplain
    exact Bool.noConfusion hplain.1
  · rintro rfl
    exact hplain.2 rfl

/-! ## Array names -/

/-- The name of the arrays of what has the name `element`. -/
def arrayName (element : String) : String := "array<" ++ element ++ ">"

theorem toList_arrayName (element : String) :
    (arrayName element).toList = "array<".toList ++ element.toList ++ ['>'] := by
  rw [arrayName, String.toList_append, String.toList_append]
  rfl

theorem elementName?_eq_some_iff {name element : List Char} :
    elementName? name = some element ↔ name = "array<".toList ++ element ++ ['>'] := by
  constructor
  · intro h
    unfold elementName? at h
    split at h
    · rename_i rest
      split at h
      · rename_i hlast
        obtain ⟨front, rfl⟩ := List.getLast?_eq_some_iff.mp hlast
        rw [List.dropLast_concat] at h
        cases h
        rfl
      · cases h
    · cases h
  · rintro rfl
    show (if (element ++ ['>']).getLast? = some '>' then some (element ++ ['>']).dropLast
      else none) = some element
    simp

theorem elementName?_arrayName (element : String) :
    elementName? (arrayName element).toList = some element.toList := by
  rw [elementName?_eq_some_iff, toList_arrayName]

theorem elementName?_eq_none (h : ∀ element, s ≠ arrayName element) :
    elementName? s.toList = none := by
  rw [Option.eq_none_iff_forall_ne_some]
  intro element helement
  apply h (String.ofList element)
  rw [elementName?_eq_some_iff] at helement
  rw [← String.toList_inj, helement, toList_arrayName, String.toList_ofList (l := element)]

theorem trimmed_arrayName (element : String) : Trimmed (arrayName element).toList := by
  rw [toList_arrayName]
  refine ⟨?_, ?_⟩
  · intro c hc
    cases hc
    rfl
  · intro c hc
    rw [List.getLast?_concat] at hc
    cases hc
    rfl

theorem length_arrayName (element : String) :
    (arrayName element).length = element.length + 7 := by
  rw [arrayName, String.length_append, String.length_append]
  show 6 + element.length + 1 = element.length + 7
  omega

/-! ## What is read -/

theorem parseChars_array {name element : List Char}
    (h : elementName? (Text.trim name) = some element) :
    parseChars name = (parseChars element).map array := by
  rw [parseChars]
  split
  · rename_i element' h'
    cases h.symm.trans h'
    cases parseChars element <;> rfl
  · rename_i h'
    cases h.symm.trans h'

theorem parseChars_plain {name : List Char} (h : elementName? (Text.trim name) = none) :
    parseChars name = match plain? (String.ofList ((Text.trim name).map Char.toLower)) with
      | some t => .ok t
      | none => .error (Text.trim name) := by
  rw [parseChars]
  split
  · rename_i element h'
    cases h.symm.trans h'
  · rfl

/-- Blanks around a text do not matter. -/
theorem parse_surround {before after : String} (s : String) (hb : Blank before.toList)
    (ha : Blank after.toList) : parse (before ++ s ++ after) = parse s := by
  have htrim : Text.trim (before ++ s ++ after).toList = Text.trim s.toList := by
    rw [String.toList_append, String.toList_append, Text.trim_surround s.toList hb ha]
  have hchars : parseChars (before ++ s ++ after).toList = parseChars s.toList := by
    cases helement : elementName? (Text.trim s.toList) with
    | some element => rw [parseChars_array helement, parseChars_array (htrim ▸ helement)]
    | none => rw [parseChars_plain helement, parseChars_plain (htrim ▸ helement), htrim]
  rw [parse, parse, hchars]

/-- An array name is read as the arrays of what its element is read as. -/
theorem parse_arrayName (element : String) :
    parse (arrayName element) = (parse element).map array := by
  have helement : elementName? (Text.trim (arrayName element).toList) = some element.toList := by
    rw [(trimmed_arrayName element).trim_eq, elementName?_arrayName]
  rw [parse, parseChars_array helement, parse]
  cases parseChars element.toList <;> rfl

/-- A text without blanks around that is no array name is read as a plain name. -/
theorem parse_of_not_array (htrim : Trimmed s.toList) (harray : ∀ element, s ≠ arrayName element) :
    parse s = match plain? s.toLower with
      | some t => .ok t
      | none => .error s := by
  have hnone : elementName? (Text.trim s.toList) = none := by
    rw [htrim.trim_eq, elementName?_eq_none harray]
  have hlower : String.ofList (s.toList.map Char.toLower) = s.toLower := by
    rw [← String.toList_inj, String.toList_ofList, toList_toLower]
  rw [parse, parseChars_plain hnone, htrim.trim_eq, hlower]
  cases plain? s.toLower with
  | none =>
    show Except.error (String.ofList s.toList) = Except.error s
    rw [String.ofList_toList]
  | some t => rfl

theorem not_array_of_toLower (h : s.toLower ∈ t.plainNames) : ∀ element, s ≠ arrayName element := by
  rintro element rfl
  apply (not_blank_of_toLower h '<' _).2 rfl
  rw [toList_arrayName]
  simp

theorem trimmed_of_toLower (h : s.toLower ∈ t.plainNames) : Trimmed s.toList :=
  Text.trimmed_of_forall fun c hc => (not_blank_of_toLower h c hc).1

/-- A plain name is read as its type in whatever case it stands. -/
theorem parse_of_toLower (h : s.toLower ∈ t.plainNames) : parse s = .ok t := by
  rw [parse_of_not_array (trimmed_of_toLower h) (not_array_of_toLower h), plain?_of_mem h]

theorem parse_of_plainNames {name : String} (h : name ∈ t.plainNames) : parse name = .ok t := by
  apply parse_of_toLower
  rw [toLower_of_plainNames h]
  exact h

/-- The name of a type is read as the type. -/
theorem parse_name (t : ColumnType) : parse t.name = .ok t := by
  induction t with
  | array element ih =>
    show parse (arrayName element.name) = _
    rw [parse_arrayName, ih]
    rfl
  | _ => exact parse_of_plainNames List.mem_cons_self

theorem name_injective : Function.Injective name := by
  intro t t' h
  have hok : Except.ok t = (Except.ok t' : Except String ColumnType) := by
    rw [← parse_name t, ← parse_name t', h]
  exact Except.ok.inj hok

/-! ## Other spellings -/

/-- The text `s'` is the text `s` with other blanks around it and around its elements, or with its
plain name in another case. -/
inductive Respells : String → String → Prop
  | refl (s : String) : Respells s s
  | plain {s s' : String} {t : ColumnType} :
      s.toLower ∈ t.plainNames → s'.toLower = s.toLower → Respells s s'
  | element {s s' : String} : Respells s s' → Respells (arrayName s) (arrayName s')
  | surround {s s' before after before' after' : String} : Respells s s' →
      Blank before.toList → Blank after.toList → Blank before'.toList → Blank after'.toList →
      Respells (before ++ s ++ after) (before' ++ s' ++ after')

theorem Respells.parse_eq (h : Respells s s') : parse s' = parse s := by
  induction h with
  | refl s => rfl
  | plain hs hs' => rw [parse_of_toLower hs, parse_of_toLower (hs' ▸ hs)]
  | element h ih => rw [parse_arrayName, parse_arrayName, ih]
  | surround h hb ha hb' ha' ih => rw [parse_surround _ hb ha, parse_surround _ hb' ha', ih]

/-! ## The innermost part -/

/-- Arrays of arrays, so many. -/
def nested (t : ColumnType) : Nat → ColumnType
  | 0 => t
  | depth + 1 => array (t.nested depth)

/-- Inside `depth` array names the text `s` has the part `leaf`, which is no array name any more.
Blanks around a part do not belong to it. -/
inductive Innermost : String → Nat → String → Prop
  | leaf {before leaf after : String} : Blank before.toList → Blank after.toList →
      Trimmed leaf.toList → (∀ element, leaf ≠ arrayName element) →
      Innermost (before ++ leaf ++ after) 0 leaf
  | array {before element after leaf : String} {depth : Nat} : Blank before.toList →
      Blank after.toList → Innermost element depth leaf →
      Innermost (before ++ arrayName element ++ after) (depth + 1) leaf

theorem exists_surround (s : String) : ∃ before part after : String,
    Blank before.toList ∧ Blank after.toList ∧ Trimmed part.toList ∧
      s = before ++ part ++ after := by
  obtain ⟨before, after, hb, ha, hs⟩ := Text.exists_surround s.toList
  refine ⟨.ofList before, .ofList (Text.trim s.toList), .ofList after, ?_, ?_, ?_, ?_⟩
  · rwa [String.toList_ofList]
  · rwa [String.toList_ofList]
  · rw [String.toList_ofList]
    exact Text.trimmed_trim s.toList
  · rw [← String.ofList_append, ← String.ofList_append, ← hs, String.ofList_toList]

/-- Every text has an innermost part; each array name around it takes up seven characters. -/
theorem exists_innermost (s : String) :
    ∃ depth leaf, Innermost s depth leaf ∧ 7 * depth + leaf.length ≤ s.length := by
  induction hlen : s.length using Nat.strong_induction_on generalizing s with
  | _ length ih =>
    obtain ⟨before, part, after, hb, ha, htrim, rfl⟩ := exists_surround s
    rw [String.length_append, String.length_append] at hlen
    by_cases harray : ∃ element, part = arrayName element
    · obtain ⟨element, rfl⟩ := harray
      rw [length_arrayName] at hlen
      obtain ⟨depth, leaf, hleaf, hbound⟩ := ih element.length (by omega) element rfl
      exact ⟨depth + 1, leaf, .array hb ha hleaf, by omega⟩
    · exact ⟨0, part, .leaf hb ha htrim (not_exists.mp harray), by omega⟩

/-- A text is read as its innermost part is, in the arrays around it. -/
theorem Innermost.parse_eq (h : Innermost s depth leaf) :
    parse s = match plain? leaf.toLower with
      | some p => .ok (p.nested depth)
      | none => .error leaf := by
  induction h with
  | leaf hb ha htrim harray => rw [parse_surround _ hb ha, parse_of_not_array htrim harray]; rfl
  | @array before element after leaf depth hb ha _ ih =>
    rw [parse_surround _ hb ha, parse_arrayName, ih]
    cases plain? leaf.toLower <;> rfl

theorem Innermost.parse_eq_ok_iff (h : Innermost s depth leaf) :
    parse s = .ok t ↔ ∃ p : ColumnType, leaf.toLower ∈ p.plainNames ∧ t = p.nested depth := by
  rw [h.parse_eq]
  cases hp : plain? leaf.toLower with
  | none =>
    constructor
    · intro hok
      cases hok
    · rintro ⟨p, hmem, -⟩
      cases hp.symm.trans (plain?_of_mem hmem)
  | some p =>
    constructor
    · intro hok
      exact ⟨p, plain?_eq_some_iff.mp hp, (Except.ok.inj hok).symm⟩
    · rintro ⟨p', hmem, rfl⟩
      cases hp.symm.trans (plain?_of_mem hmem)
      rfl

theorem Innermost.parse_eq_error_iff {unknown : String} (h : Innermost s depth leaf) :
    parse s = .error unknown ↔
      unknown = leaf ∧ ∀ p : ColumnType, leaf.toLower ∉ p.plainNames := by
  rw [h.parse_eq]
  cases hp : plain? leaf.toLower with
  | none =>
    constructor
    · intro herror
      refine ⟨(Except.error.inj herror).symm, fun p hmem => ?_⟩
      cases hp.symm.trans (plain?_of_mem hmem)
    · rintro ⟨rfl, -⟩
      rfl
  | some p =>
    constructor
    · intro herror
      cases herror
    · rintro ⟨-, hunknown⟩
      exact absurd (plain?_eq_some_iff.mp hp) (hunknown p)

/-! ## Round trip -/

/-- The name of every type is read as the type, so no two types have one name. What a text is read
as does not depend on the blanks around its parts nor on the case of its plain name, and the name
of the type it is read as is read as this type again. Every text has an innermost part, with no
more array names around it than fit into the text: it is read as the type with this name in so
many arrays, and where there is none it is answered with just this part. -/
theorem names_round_trip :
    (∀ t : ColumnType, parse t.name = .ok t) ∧
    Function.Injective name ∧
    (∀ s t, parse s = .ok t → (∀ s', Respells s s' → parse s' = .ok t) ∧ parse t.name = .ok t) ∧
    (∀ s, ∃ depth leaf, Innermost s depth leaf ∧ 7 * depth + leaf.length ≤ s.length) ∧
    ∀ s depth leaf, Innermost s depth leaf →
      (∀ t, parse s = .ok t ↔
        ∃ p : ColumnType, leaf.toLower ∈ p.plainNames ∧ t = p.nested depth) ∧
      ∀ unknown, parse s = .error unknown ↔
        unknown = leaf ∧ ∀ p : ColumnType, leaf.toLower ∉ p.plainNames := by
  refine ⟨parse_name, name_injective, ?_, exists_innermost, ?_⟩
  · intro s t hok
    refine ⟨?_, parse_name t⟩
    intro s' h
    rw [h.parse_eq, hok]
  · intro s depth leaf h
    exact ⟨fun _ => h.parse_eq_ok_iff, fun _ => h.parse_eq_error_iff⟩

end StagedJoin.ColumnType

namespace StagedJoin.Sample

open ColumnType

/-- Arrays of integers in another spelling, and arrays of what is no type. -/
theorem names_round_trip_arrays :
    Innermost "array<int>" 1 "int" ∧ parse "array<int>" = .ok (.array .integer) ∧
    Respells "array<int>" " array< INT >" ∧ parse " array< INT >" = .ok (.array .integer) ∧
    Innermost "array<wat>" 1 "wat" ∧ parse "array<wat>" = .error "wat" := by
  obtain ⟨-, -, hrespells, -, hinnermost⟩ := names_round_trip
  have hempty : Text.Blank "".toList := Text.blank_nil
  have hspace : Text.Blank " ".toList := by
    intro c hc
    cases List.mem_singleton.mp hc
    rfl
  have hinside : ∀ leaf, Text.Trimmed leaf.toList → (∀ element, leaf ≠ arrayName element) →
      Innermost ("" ++ arrayName ("" ++ leaf ++ "") ++ "") 1 leaf :=
    fun leaf htrim harray => .array hempty hempty (.leaf hempty hempty htrim harray)
  have hint : "int".toLower ∈ integer.plainNames := by
    rw [toLower_of_plainNames (t := integer) (by simp [plainNames])]
    simp [plainNames]
  have hINT : "INT".toLower = "int".toLower := by
    rw [← String.toList_inj, toList_toLower, toList_toLower]
    rfl
  have hwat : "wat".toLower = "wat" := by
    rw [← String.toList_inj, toList_toLower]
    rfl
  have hunknown : ∀ p : ColumnType, "wat".toLower ∉ p.plainNames := by
    rw [hwat]
    intro p
    cases p <;> simp [plainNames]
  have hleafInt : Innermost "array<int>" 1 "int" :=
    hinside "int" (trimmed_of_toLower hint) (not_array_of_toLower hint)
  have hleafWat : Innermost "array<wat>" 1 "wat" := by
    apply hinside "wat" ⟨fun c hc => by cases hc; rfl, fun c hc => by cases hc; rfl⟩
    intro element h
    have hlength := congrArg String.length h
    rw [length_arrayName] at hlength
    have hthree : "wat".length = 3 := rfl
    omega
  have hok : parse "array<int>" = .ok (.array .integer) :=
    ((hinnermost _ _ _ hleafInt).1 _).mpr ⟨.integer, hint, rfl⟩
  have hpart : Respells ("" ++ "int" ++ "") (" " ++ "INT" ++ " ") :=
    .surround (.plain hint hINT) hempty hempty hspace hspace
  have hspelled : Respells ("" ++ arrayName ("" ++ "int" ++ "") ++ "")
      (" " ++ arrayName (" " ++ "INT" ++ " ") ++ "") :=
    .surround (.element hpart) hempty hempty hspace hempty
  exact ⟨hleafInt, hok, hspelled, (hrespells _ _ hok).1 _ hspelled, hleafWat,
    ((hinnermost _ _ _ hleafWat).2 _).mpr ⟨rfl, hunknown⟩⟩

end StagedJoin.Sample
