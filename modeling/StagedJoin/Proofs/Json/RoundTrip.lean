import StagedJoin.Json.Reader
import StagedJoin.Json.Writer

/-!
Reading documents that have been written. A string ends at the quote behind it, and items
and fields at their bracket, so a document without numbers is read back from its text
whatever follows the text.
-/
namespace StagedJoin.Json

/-! ## Strings -/

theorem hexValue?_hexDigit : ∀ n < 16, hexValue? (hexDigit n) = some n := by decide

/-- What a character that has been written is read as: control characters without a short escape
are code units. -/
def partOf (c : Char) : StringPart :=
  if c.toNat < 0x20 ∧ c ∉ ['\x08', '\x0c', '\n', '\r', '\t'] then .unit c.toNat else .char c

theorem readParts_escapeChar (c : Char) (rest : List Char) :
    readParts (escapeChar c ++ rest) = consPart (partOf c) (readParts rest) := by
  by_cases hshort : c ∈ ['"', '\\', '\x08', '\x0c', '\n', '\r', '\t']
  · simp only [List.mem_cons, List.not_mem_nil, or_false] at hshort
    rcases hshort with rfl | rfl | rfl | rfl | rfl | rfl | rfl <;> rfl
  · simp only [List.mem_cons, List.not_mem_nil, or_false, not_or] at hshort
    by_cases hcontrol : c.toNat < 0x20
    · have hescape : escapeChar c =
          ['\\', 'u', '0', '0', hexDigit (c.toNat / 16), hexDigit (c.toNat % 16)] := by
        simp [escapeChar, hshort, hcontrol]
      have hzero : hexValue? '0' = some 0 := rfl
      have hhigh := hexValue?_hexDigit (c.toNat / 16) (by omega)
      have hlow := hexValue?_hexDigit (c.toNat % 16) (by omega)
      have hunit : hexUnit? '0' '0' (hexDigit (c.toNat / 16)) (hexDigit (c.toNat % 16)) =
          some c.toNat := by
        simp [hexUnit?, hzero, hhigh, hlow]
        omega
      have hpart : partOf c = .unit c.toNat := by simp [partOf, hshort, hcontrol]
      rw [hescape, hpart]
      simp only [List.cons_append, List.nil_append, readParts.eq_3, hunit]
    · have hescape : escapeChar c = [c] := by simp [escapeChar, hshort, hcontrol]
      have hpart : partOf c = .char c := by simp [partOf, hcontrol]
      have hread : readParts (c :: rest) = if c = '\\' ∨ c.toNat < 0x20 then none
          else consPart (.char c) (readParts rest) :=
        readParts.eq_5 c rest hshort.1 (fun _ _ _ _ _ h => absurd h hshort.2.1)
          (fun _ _ h => absurd h hshort.2.1)
      rw [hescape, hpart, List.singleton_append, hread, if_neg (by simp [hshort, hcontrol])]

theorem decodeParts_partOf (c : Char) (parts : List StringPart) :
    decodeParts (partOf c :: parts) = (decodeParts parts).map (c :: ·) := by
  by_cases h : c.toNat < 0x20 ∧ c ∉ ['\x08', '\x0c', '\n', '\r', '\t']
  · have hlead : isLead c.toNat = false := by
      simp only [isLead, Bool.and_eq_false_iff, decide_eq_false_iff_not]
      omega
    have htrail : isTrail c.toNat = false := by
      simp only [isTrail, Bool.and_eq_false_iff, decide_eq_false_iff_not]
      omega
    rw [partOf, if_pos h]
    cases parts with
    | nil => simp [decodeParts, hlead, htrail]
    | cons part parts => cases part <;> simp [decodeParts, hlead, htrail]
  · rw [partOf, if_neg h]
    rfl

/-- A string is read up to the quote behind it. -/
theorem readString_escaped (s : List Char) (rest : List Char) :
    readString (s.flatMap escapeChar ++ '"' :: rest) = some (some (String.ofList s), rest) := by
  have hparts : readParts (s.flatMap escapeChar ++ '"' :: rest) = some (s.map partOf, rest) := by
    induction s with
    | nil => rfl
    | cons c s ih =>
      rw [List.flatMap_cons, List.append_assoc, readParts_escapeChar, ih]
      rfl
  have hdecode : decodeParts (s.map partOf) = some s := by
    clear hparts
    induction s with
    | nil => rfl
    | cons c s ih => rw [List.map_cons, decodeParts_partOf, ih, Option.map_some]
  rw [readString, hparts]
  simp [hdecode]

/-! ## Texts of documents -/

/-- A document without numbers in which every string and every key is legible. -/
inductive Plain : Json → Prop
  | null : Plain .null
  | boolean (b : Bool) : Plain (.boolean b)
  | string (s : String) : Plain (.ofString s)
  | array {items : List Json} : (∀ j ∈ items, Plain j) → Plain (.array items)
  | object {fields : List (String × Json)} : (∀ f ∈ fields, Plain f.2) → Plain (.ofPairs fields)

variable {j : Json} {items : List Json} {fields : List (String × Json)}

theorem toList_stringText (s : String) :
    (stringText s).toList = '"' :: (s.toList.flatMap escapeChar ++ ['"']) := by
  rw [stringText, String.toList_ofList, List.cons_append]

/-- Items written with commas between them. -/
def commaText {α : Type} (write : α → String) (items : List α) : List Char :=
  (String.intercalate "," (items.map write)).toList

theorem commaText_singleton {α : Type} (write : α → String) (a : α) :
    commaText write [a] = (write a).toList := by
  rw [commaText, List.map_singleton, String.intercalate_singleton]

theorem commaText_cons_cons {α : Type} (write : α → String) (a b : α) (items : List α) :
    commaText write (a :: b :: items) = (write a).toList ++ ',' :: commaText write (b :: items) := by
  rw [commaText, List.map_cons, List.map_cons, String.intercalate_cons_cons, String.toList_append,
    String.toList_append, List.append_assoc, ← List.map_cons]
  rfl

def fieldText (f : String × Json) : String := stringText f.1 ++ ":" ++ f.2.text

theorem toList_fieldText (f : String × Json) :
    (fieldText f).toList = (stringText f.1).toList ++ ':' :: f.2.text.toList := by
  rw [fieldText, String.toList_append, String.toList_append, List.append_assoc]
  rfl

theorem itemTexts_eq_map (items : List Json) : itemTexts items = items.map text := by
  induction items with
  | nil => rfl
  | cons j items ih => rw [itemTexts, ih, List.map_cons]

theorem fieldTexts_eq_map (fields : List (String × Json)) :
    fieldTexts (fields.map fun f => (some f.1, f.2)) = fields.map fieldText := by
  induction fields with
  | nil => rfl
  | cons f fields ih =>
    rw [List.map_cons, fieldTexts, ih, List.map_cons]
    rfl

theorem toList_text_array (items : List Json) :
    (Json.array items).text.toList = '[' :: (commaText text items ++ [']']) := by
  rw [text, String.toList_append, String.toList_append, itemTexts_eq_map]
  rfl

theorem toList_text_ofPairs (fields : List (String × Json)) :
    (ofPairs fields).text.toList = '\x7b' :: (commaText fieldText fields ++ ['\x7d']) := by
  rw [ofPairs, text, String.toList_append, String.toList_append, fieldTexts_eq_map]
  rfl

/-- A text begins with neither a blank nor a closing bracket. -/
theorem Plain.exists_text_eq_cons (h : Plain j) :
    ∃ c s, j.text.toList = c :: s ∧ isSpace c = false ∧ c ≠ ']' := by
  cases h with
  | null => exact ⟨'n', _, rfl, rfl, by decide⟩
  | boolean b => cases b <;> exact ⟨_, _, rfl, rfl, by decide⟩
  | string s => exact ⟨'"', _, toList_stringText s, rfl, by decide⟩
  | array h => exact ⟨'[', _, toList_text_array _, rfl, by decide⟩
  | object h => exact ⟨'\x7b', _, toList_text_ofPairs _, rfl, by decide⟩

/-! ## Steps of the readers -/

section Steps

variable {fuel : Nat} {s t u rest : List Char} {key : Option String}
  {named : List (Option String × Json)}

theorem skipSpace_cons {c : Char} (s : List Char) (h : isSpace c = false) :
    skipSpace (c :: s) = c :: s := by
  simp [skipSpace, h]

theorem readItems_last (h : readValue fuel s = some (j, ']' :: rest)) :
    readItems (fuel + 1) s = some ([j], rest) := by
  rw [readItems, h]
  rfl

theorem readItems_more (h : readValue fuel s = some (j, ',' :: t))
    (hrest : readItems fuel t = some (items, rest)) :
    readItems (fuel + 1) s = some (j :: items, rest) := by
  simp [readItems, h, skipSpace_cons t (rfl : isSpace ',' = false), hrest]

theorem readFields_last (hkey : readString s = some (key, ':' :: t))
    (hvalue : readValue fuel t = some (j, '\x7d' :: rest)) :
    readFields (fuel + 1) ('"' :: s) = some ([(key, j)], rest) := by
  simp [readFields, skipSpace_cons s (rfl : isSpace '"' = false), hkey,
    skipSpace_cons t (rfl : isSpace ':' = false), hvalue,
    skipSpace_cons rest (rfl : isSpace '\x7d' = false)]

theorem readFields_more (hkey : readString s = some (key, ':' :: t))
    (hvalue : readValue fuel t = some (j, ',' :: u))
    (hrest : readFields fuel u = some (named, rest)) :
    readFields (fuel + 1) ('"' :: s) = some ((key, j) :: named, rest) := by
  simp [readFields, skipSpace_cons s (rfl : isSpace '"' = false), hkey,
    skipSpace_cons t (rfl : isSpace ':' = false), hvalue,
    skipSpace_cons u (rfl : isSpace ',' = false), hrest]

theorem readValue_string (h : readString s = some (key, rest)) :
    readValue (fuel + 1) ('"' :: s) = some (.string key, rest) := by
  simp [readValue, skipSpace_cons s (rfl : isSpace '"' = false), h]

theorem readValue_items {c : Char} (hspace : isSpace c = false) (hclose : c ≠ ']')
    (h : readItems fuel (c :: s) = some (items, rest)) :
    readValue (fuel + 1) ('[' :: c :: s) = some (.array items, rest) := by
  simp [readValue, skipSpace_cons _ (rfl : isSpace '[' = false), skipSpace_cons s hspace, hclose,
    h]

theorem readValue_fields (h : readFields fuel ('"' :: s) = some (named, rest)) :
    readValue (fuel + 1) ('\x7b' :: '"' :: s) = some (.object named, rest) := by
  simp [readValue, skipSpace_cons _ (rfl : isSpace '\x7b' = false),
    skipSpace_cons s (rfl : isSpace '"' = false), h]

end Steps

/-! ## What is read back -/

/-- The document is read from its text, with two steps for each character and whatever follows. -/
def ReadBack (j : Json) : Prop :=
  ∀ fuel rest, 2 * j.text.toList.length ≤ fuel →
    readValue fuel (j.text.toList ++ rest) = some (j, rest)

theorem readString_stringText (s : String) (rest : List Char) :
    readString (s.toList.flatMap escapeChar ++ '"' :: rest) = some (some s, rest) := by
  rw [readString_escaped, String.ofList_toList]

theorem readItems_commaText {fuel : Nat} {rest : List Char} (hne : items ≠ [])
    (h : ∀ j ∈ items, ReadBack j) (hfuel : 2 * (commaText text items).length < fuel) :
    readItems fuel (commaText text items ++ ']' :: rest) = some (items, rest) := by
  induction items generalizing fuel with
  | nil => exact absurd rfl hne
  | cons j items ih =>
    obtain ⟨fuel, rfl⟩ : ∃ n, fuel = n + 1 := ⟨fuel - 1, by omega⟩
    have hj := h j List.mem_cons_self
    cases items with
    | nil =>
      rw [commaText_singleton] at hfuel ⊢
      exact readItems_last (hj fuel _ (by omega))
    | cons k items =>
      have htail : ∀ j ∈ k :: items, ReadBack j := fun j hj => h j (List.mem_cons_of_mem _ hj)
      rw [commaText_cons_cons, List.length_append, List.length_cons] at hfuel
      rw [commaText_cons_cons, List.append_assoc]
      apply readItems_more (hj fuel _ (by omega))
      exact ih (List.cons_ne_nil k items) htail (by omega)

theorem toList_fieldText_append (f : String × Json) (rest : List Char) :
    (fieldText f).toList ++ rest = '"' :: (f.1.toList.flatMap escapeChar ++
      '"' :: ':' :: (f.2.text.toList ++ rest)) := by
  rw [toList_fieldText, toList_stringText]
  simp

theorem readFields_commaText {fuel : Nat} {rest : List Char} (hne : fields ≠ [])
    (h : ∀ f ∈ fields, ReadBack f.2) (hfuel : 2 * (commaText fieldText fields).length < fuel) :
    readFields fuel (commaText fieldText fields ++ '\x7d' :: rest) =
      some (fields.map fun f => (some f.1, f.2), rest) := by
  induction fields generalizing fuel with
  | nil => exact absurd rfl hne
  | cons f fields ih =>
    obtain ⟨fuel, rfl⟩ : ∃ n, fuel = n + 1 := ⟨fuel - 1, by omega⟩
    have hf := h f List.mem_cons_self
    have hlength : f.2.text.toList.length < (fieldText f).toList.length := by
      rw [toList_fieldText, toList_stringText]
      simp
      omega
    cases fields with
    | nil =>
      rw [commaText_singleton] at hfuel ⊢
      rw [toList_fieldText_append]
      exact readFields_last (readString_stringText _ _) (hf fuel _ (by omega))
    | cons g fields =>
      have htail : ∀ f ∈ g :: fields, ReadBack f.2 := fun f hf => h f (List.mem_cons_of_mem _ hf)
      rw [commaText_cons_cons, List.length_append, List.length_cons] at hfuel
      rw [commaText_cons_cons, List.append_assoc, toList_fieldText_append]
      apply readFields_more (readString_stringText _ _) (hf fuel _ (by omega))
      exact ih (List.cons_ne_nil g fields) htail (by omega)

theorem readBack_array (hplain : ∀ j ∈ items, Plain j) (h : ∀ j ∈ items, ReadBack j) :
    ReadBack (.array items) := by
  intro fuel rest hfuel
  rw [toList_text_array, List.length_cons, List.length_append, List.length_singleton] at hfuel
  obtain ⟨fuel, rfl⟩ : ∃ n, fuel = n + 1 := ⟨fuel - 1, by omega⟩
  rw [toList_text_array, List.cons_append, List.append_assoc, List.singleton_append]
  cases items with
  | nil => rfl
  | cons j items =>
    have hitems : readItems fuel (commaText text (j :: items) ++ ']' :: rest) =
        some (j :: items, rest) :=
      readItems_commaText (List.cons_ne_nil j items) h (by omega)
    obtain ⟨c, s, hc, hspace, hclose⟩ : ∃ c s, commaText text (j :: items) = c :: s ∧
        isSpace c = false ∧ c ≠ ']' := by
      obtain ⟨c, s, hj, hc⟩ := (hplain j List.mem_cons_self).exists_text_eq_cons
      cases items with
      | nil => exact ⟨c, s, by rw [commaText_singleton, hj], hc⟩
      | cons k items => exact ⟨c, _, by rw [commaText_cons_cons, hj, List.cons_append], hc⟩
    rw [hc, List.cons_append] at hitems ⊢
    exact readValue_items hspace hclose hitems

theorem readBack_ofPairs (h : ∀ f ∈ fields, ReadBack f.2) : ReadBack (.ofPairs fields) := by
  intro fuel rest hfuel
  rw [toList_text_ofPairs, List.length_cons, List.length_append, List.length_singleton] at hfuel
  obtain ⟨fuel, rfl⟩ : ∃ n, fuel = n + 1 := ⟨fuel - 1, by omega⟩
  rw [toList_text_ofPairs, List.cons_append, List.append_assoc, List.singleton_append]
  cases fields with
  | nil => rfl
  | cons f fields =>
    have hfields : readFields fuel (commaText fieldText (f :: fields) ++ '\x7d' :: rest) =
        some ((f :: fields).map fun f => (some f.1, f.2), rest) :=
      readFields_commaText (List.cons_ne_nil f fields) h (by omega)
    obtain ⟨s, hs⟩ : ∃ s, commaText fieldText (f :: fields) = '"' :: s := by
      cases fields with
      | nil =>
        rw [commaText_singleton, toList_fieldText, toList_stringText]
        exact ⟨_, rfl⟩
      | cons g fields =>
        rw [commaText_cons_cons, toList_fieldText, toList_stringText]
        exact ⟨_, rfl⟩
    rw [hs, List.cons_append] at hfields ⊢
    exact readValue_fields hfields

theorem readBack_ofString (s : String) : ReadBack (.ofString s) := by
  intro fuel rest hfuel
  have htext : (ofString s).text.toList = '"' :: (s.toList.flatMap escapeChar ++ ['"']) :=
    toList_stringText s
  rw [htext, List.length_cons] at hfuel
  obtain ⟨fuel, rfl⟩ : ∃ n, fuel = n + 1 := ⟨fuel - 1, by omega⟩
  rw [htext, List.cons_append, List.append_assoc, List.singleton_append]
  exact readValue_string (readString_stringText s rest)

/-- A document without numbers is read back from its text. -/
theorem Plain.readBack (h : Plain j) : ReadBack j := by
  induction h with
  | null =>
    rintro (_ | fuel) rest hfuel
    · exact absurd hfuel (by decide)
    · rfl
  | boolean b =>
    rintro (_ | fuel) rest hfuel
    · cases b <;> exact absurd hfuel (by decide)
    · cases b <;> rfl
  | string s => exact readBack_ofString s
  | array h ih => exact readBack_array h ih
  | object h ih => exact readBack_ofPairs ih

theorem Plain.parse_text (h : Plain j) : parse j.text = some j := by
  have hread := h.readBack (2 * j.text.toList.length + 2) [] (Nat.le_add_right _ _)
  rw [List.append_nil] at hread
  rw [parse, hread]
  rfl

end StagedJoin.Json
