import Mathlib.Data.List.TakeWhile
import StagedJoin.Text.Blank

/-!
Texts without the blanks at their ends. Blanks put around a text are dropped again, a
text that begins and ends with other characters is left as it is, and every text is what
is left of it with blanks around.
-/
namespace StagedJoin.Text

variable {s before after : List Char}

def Blank (s : List Char) : Prop := ∀ c ∈ s, isBlank c = true

/-- Neither the first nor the last character is a blank. -/
def Trimmed (s : List Char) : Prop :=
  (∀ c ∈ s.head?, isBlank c = false) ∧ ∀ c ∈ s.getLast?, isBlank c = false

/-- Blanks are no letters. -/
theorem toLower_of_isBlank {c : Char} (h : isBlank c = true) : c.toLower = c := by
  have hcase : ¬ (c.val ≥ 'A'.val ∧ c.val ≤ 'Z'.val) := by
    rintro ⟨hlo, hhi⟩
    have hlo' : 65 ≤ c.toNat := UInt32.le_iff_toNat_le.mp hlo
    have hhi' : c.toNat ≤ 90 := UInt32.le_iff_toNat_le.mp hhi
    simp only [isBlank, Bool.or_eq_true, Bool.and_eq_true, decide_eq_true_eq] at h
    omega
  exact dif_neg hcase

theorem blank_nil : Blank [] := fun _ h => nomatch h

theorem not_blank_cons {c : Char} (h : isBlank c = false) : ¬ Blank (c :: s) := by
  intro hs
  rw [hs c List.mem_cons_self] at h
  cases h

theorem Blank.reverse (h : Blank s) : Blank s.reverse := fun c hc => h c (List.mem_reverse.mp hc)

theorem blank_takeWhile (s : List Char) : Blank (s.takeWhile isBlank) :=
  fun _ hc => List.mem_takeWhile_imp hc

theorem dropWhile_of_head (h : ∀ c ∈ s.head?, isBlank c = false) : s.dropWhile isBlank = s := by
  cases s with
  | nil => rfl
  | cons c rest =>
    have hc := h c rfl
    simp [hc]

theorem trimEnd_append (s : List Char) (ha : Blank after) : trimEnd (s ++ after) = trimEnd s := by
  rw [trimEnd, List.reverse_append, List.dropWhile_append_of_pos ha.reverse, trimEnd]

/-- Blanks around a text are dropped. -/
theorem trim_surround (s : List Char) (hb : Blank before) (ha : Blank after) :
    trim (before ++ s ++ after) = trim s := by
  rw [trim, List.append_assoc, List.dropWhile_append_of_pos hb, List.dropWhile_append]
  split
  · rename_i hs
    rw [trim, List.isEmpty_iff.mp hs, ← List.append_nil after, List.dropWhile_append_of_pos ha]
    rfl
  · exact trimEnd_append _ ha

theorem Trimmed.trim_eq (h : Trimmed s) : trim s = s := by
  have hlast : ∀ c ∈ s.reverse.head?, isBlank c = false := by
    rw [List.head?_reverse]
    exact h.2
  rw [trim, dropWhile_of_head h.1, trimEnd, dropWhile_of_head hlast, List.reverse_reverse]

theorem trimmed_of_forall (h : ∀ c ∈ s, isBlank c = false) : Trimmed s :=
  ⟨fun c hc => h c (List.mem_of_mem_head? hc), fun c hc => h c (List.mem_of_mem_getLast? hc)⟩

/-- What `trimEnd` drops is blank. -/
theorem exists_trimEnd_append (s : List Char) : ∃ after, Blank after ∧ s = trimEnd s ++ after := by
  refine ⟨(s.reverse.takeWhile isBlank).reverse, (blank_takeWhile _).reverse, ?_⟩
  rw [trimEnd, ← List.reverse_append, List.takeWhile_append_dropWhile, List.reverse_reverse]

theorem exists_surround (s : List Char) :
    ∃ before after, Blank before ∧ Blank after ∧ s = before ++ trim s ++ after := by
  obtain ⟨after, ha, hs⟩ := exists_trimEnd_append (s.dropWhile isBlank)
  refine ⟨s.takeWhile isBlank, after, blank_takeWhile s, ha, ?_⟩
  rw [List.append_assoc, trim, ← hs, List.takeWhile_append_dropWhile]

theorem head?_dropWhile (s : List Char) : ∀ c ∈ (s.dropWhile isBlank).head?, isBlank c = false := by
  induction s with
  | nil => simp
  | cons c rest ih =>
    by_cases hc : isBlank c
    · simpa [hc] using ih
    · simp [hc]

theorem trimmed_trim (s : List Char) : Trimmed (trim s) := by
  constructor
  · intro c hc
    -- The text that is trimmed at its end begins with the same character.
    obtain ⟨after, -, hs⟩ := exists_trimEnd_append (s.dropWhile isBlank)
    apply head?_dropWhile s c
    rw [hs, Option.mem_def, List.head?_append]
    rw [trim, Option.mem_def] at hc
    rw [hc]
    rfl
  · intro c hc
    rw [trim, trimEnd, List.getLast?_reverse] at hc
    exact head?_dropWhile _ c hc

end StagedJoin.Text
