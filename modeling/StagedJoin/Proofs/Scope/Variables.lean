import StagedJoin.Proofs.Compiler.Parts

/-!
The variables that a join adds. No two of its own variables have one name, so each
names the slot at its place behind the slots in view; a variable of the binding list
keeps its slot, because the join may not take its name.
-/
namespace StagedJoin

namespace JoinVars

/-- The slot of a variable of the join, whose slots begin at `first`. -/
def slot? (vars : JoinVars) (first : Nat) (name : String) : Option Nat :=
  (vars.slots.idxOf? (some name)).map (first + ·)

theorem slot?_lt {vars : JoinVars} {first slot : Nat} {name : String}
    (h : vars.slot? first name = some slot) : slot < first + vars.slots.length := by
  unfold slot? at h
  obtain ⟨k, hk, rfl⟩ := Option.map_eq_some_iff.mp h
  obtain ⟨hlt, -⟩ := List.idxOf?_eq_some_iff.mp hk
  omega

theorem length_slots_le {vars : JoinVars} {arity : Nat} {site : String} {u : Unit}
    (h : vars.checkArity arity site = .ok u) : vars.slots.length ≤ arity := by
  cases vars with
  | absent => exact Nat.zero_le _
  | single name =>
    by_contra hne
    simp [checkArity, arity?, slots] at h hne
    omega
  | compound names =>
    by_contra hne
    simp [checkArity, arity?, slots] at h hne
    omega

/-- Variables that are read have names that differ from each other and from those seen before. -/
theorem nodup_of_namesOf {items : List Expr} {seen : List String} {names : List (Option String)}
    (h : namesOf seen items = .ok names) :
    (names.filterMap id).Nodup ∧ ∀ name ∈ names.filterMap id, name ∉ seen := by
  induction items generalizing seen names with
  | nil =>
    cases h
    exact ⟨List.nodup_nil, fun name hn => nomatch hn⟩
  | cons e rest ih =>
    obtain ⟨name, -, h⟩ := bind_eq_ok.mp h
    cases name with
    | none =>
      obtain ⟨names, hn, he⟩ := bind_eq_ok.mp h
      cases he
      have hrest := ih hn
      exact hrest
    | some name =>
      dsimp only at h
      split at h
      · cases h
      · rename_i hseen
        obtain ⟨names, hn, he⟩ := bind_eq_ok.mp h
        cases he
        obtain ⟨hnodup, hnew⟩ := ih hn
        have hname : name ∉ names.filterMap id := fun hm => hnew name hm List.mem_cons_self
        refine ⟨List.nodup_cons.mpr ⟨hname, hnodup⟩, ?_⟩
        intro n hm
        rcases List.mem_cons.mp hm with rfl | hm
        · simpa using hseen
        · exact fun hs => hnew n hm (List.mem_cons_of_mem _ hs)

theorem nodup_names_of_splitTarget {target source : Expr} {vars : JoinVars}
    (h : splitTarget target = .ok (vars, source)) : vars.names.Nodup := by
  unfold splitTarget at h
  split at h
  · split at h
    · rename_i vars' hv
      cases h
      unfold ofExpr at hv
      split at hv
      · cases hv
      · obtain ⟨names, hn, he⟩ := bind_eq_ok.mp hv
        cases he
        exact (nodup_of_namesOf hn).1
      · obtain ⟨name, -, he⟩ := bind_eq_ok.mp hv
        cases he
        cases name <;> simp [names, slots]
    · cases h
  · cases h
    exact List.nodup_nil

end JoinVars

namespace Scope

variable {s t : Scope} {vars : JoinVars} {arity : Nat}

/-- Names that differ name the slots at their places; every other name keeps its slot. -/
theorem get?_nameSlots {names : OrderedMap Nat} {first : Nat} {slots : List (Option String)}
    (hd : (slots.filterMap id).Nodup) (name : String) :
    (nameSlots names first slots).get? name =
      ((slots.idxOf? (some name)).map (first + ·)).or (names.get? name) := by
  induction slots generalizing names first with
  | nil => rfl
  | cons slot rest ih =>
    have hplace : (rest.idxOf? (some name)).map (first + 1 + ·) =
        ((rest.idxOf? (some name)).map (· + 1)).map (first + ·) := by
      rw [Option.map_map]
      congr 1
      funext k
      simp only [Function.comp_apply]
      omega
    cases slot with
    | none =>
      rw [nameSlots, ih hd, hplace, List.idxOf?_cons]
      rfl
    | some n =>
      have hd' : n ∉ rest.filterMap id ∧ (rest.filterMap id).Nodup := List.nodup_cons.mp hd
      rw [nameSlots, ih hd'.2, List.idxOf?_cons, OrderedMap.get?_insert]
      by_cases hn : name = n
      · subst hn
        have hnone : rest.idxOf? (some name) = none := by
          rw [List.idxOf?_eq_none_iff]
          intro hm
          exact hd'.1 (List.mem_filterMap.mpr ⟨some name, hm, rfl⟩)
        simp [hnone]
      · have hne : ¬ n = name := fun he => hn he.symm
        rw [hplace]
        simp [hn, hne]

theorem checkFresh_eq_ok_iff {u : Unit} :
    s.checkFresh vars = .ok u ↔ ∀ name ∈ vars.names, s.slot? name = none := by
  unfold checkFresh slot?
  cases h : vars.names.find? s.names.contains with
  | none =>
    rw [List.find?_eq_none] at h
    simpa [OrderedMap.contains] using h
  | some name =>
    have hname : s.names.contains name = true := List.find?_some h
    constructor
    · intro he
      cases he
    · intro hfresh
      have hnone := hfresh name (List.mem_of_find?_eq_some h)
      rw [OrderedMap.contains, hnone] at hname
      cases hname

/-- A name is a variable that was in view, or else one of the join. -/
theorem slot?_of_extend (hd : vars.names.Nodup) (h : s.extend vars arity = .ok t)
    (name : String) : t.slot? name = (s.slot? name).or (vars.slot? s.slots name) := by
  obtain ⟨u, hfresh, h⟩ := bind_eq_ok.mp h
  cases h
  have hslot : (nameSlots s.names s.slots vars.slots).get? name =
      (vars.slot? s.slots name).or (s.slot? name) := get?_nameSlots hd name
  have hnames : ∀ n, some n ∈ vars.slots → s.slot? n = none := by
    intro n hn
    exact checkFresh_eq_ok_iff.mp hfresh n (List.mem_filterMap.mpr ⟨some n, hn, rfl⟩)
  change (nameSlots s.names s.slots vars.slots).get? name = _
  rw [hslot]
  cases hown : vars.slot? s.slots name with
  | none => rw [Option.none_or, Option.or_none]
  | some slot =>
    have hmem : some name ∈ vars.slots := by
      unfold JoinVars.slot? at hown
      obtain ⟨k, hk, -⟩ := Option.map_eq_some_iff.mp hown
      obtain ⟨hlt, hget, -⟩ := List.idxOf?_eq_some_iff.mp hk
      rw [← hget]
      exact List.getElem_mem hlt
    rw [hnames name hmem]
    rfl

/-- The variables of a join name its own slots, behind those that were in view. -/
theorem InView.extend {site : String} {u : Unit} (hs : s.InView) (hd : vars.names.Nodup)
    (ha : vars.checkArity arity site = .ok u) (h : s.extend vars arity = .ok t) :
    t.InView ∧ t.slots = s.slots + arity := by
  have ht : t.slots = s.slots + arity := by
    obtain ⟨u, -, h⟩ := bind_eq_ok.mp h
    cases h
    rfl
  refine ⟨fun name slot hslot => ?_, ht⟩
  rw [slot?_of_extend hd h] at hslot
  rw [ht]
  rcases Option.or_eq_some_iff.mp hslot with hview | ⟨-, hown⟩
  · have hlt := hs name slot hview
    omega
  · have hlt := JoinVars.slot?_lt hown
    have hle := JoinVars.length_slots_le ha
    omega

end Scope

end StagedJoin
