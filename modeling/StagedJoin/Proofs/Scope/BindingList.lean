import StagedJoin.Failure.Wording
import StagedJoin.Proofs.Scope.Slots

/-!
What a binding list says, read off its entries. The variables before the ellipsis are
for the first slots, those behind it for the last ones, and the pairs of the keyword
entries for the slots of aliases. A list resolves exactly when its entries are of these
kinds, its variables fit, its aliases are in view and no variable is named twice.
-/
namespace StagedJoin

namespace Expr

/-- The entries that a binding list may have. -/
inductive IsBinding : Expr → Prop
  | var (name : String) : IsBinding (.var name)
  | ellipsis : IsBinding .ellipsis
  | keyword {pairs : List (String × Expr)} (hvars : ∀ pair ∈ pairs, ∃ name, pair.2 = .var name) :
      IsBinding (.keyword pairs)

theorem isBinding_keyword_iff {pairs : List (String × Expr)} :
    (keyword pairs).IsBinding ↔ ∀ pair ∈ pairs, ∃ name, pair.2 = .var name :=
  ⟨fun h => by cases h; assumption, .keyword⟩

def isEllipsis : Expr → Bool
  | .ellipsis => true
  | _ => false

/-- The pairs of an alias and a variable in a keyword entry. -/
def aliasPairs : Expr → List (String × String)
  | .keyword pairs => pairs.filterMap fun pair => pair.2.asVar?.map (pair.1, ·)
  | _ => []

end Expr

namespace BindingList

variable {behind : Bool} {items : List Expr} {l : BindingList} {name : String} {slot : Nat}

def varsOf (items : List Expr) : List String := items.filterMap Expr.asVar?

/-- The variables before the ellipsis. -/
def leadingVars (items : List Expr) : List String :=
  varsOf (items.takeWhile fun e => !e.isEllipsis)

/-- The variables behind the ellipsis. -/
def trailingVars (items : List Expr) : List String :=
  varsOf (items.dropWhile fun e => !e.isEllipsis)

def namedVars (items : List Expr) : List (String × String) := items.flatMap Expr.aliasPairs

/-! ## The entries of a list -/

/-- The entries of a list by kind; behind an ellipsis every variable is a trailing one. -/
def reading (behind : Bool) (items : List Expr) : BindingList where
  leading := if behind then [] else (leadingVars items).map nameUnlessWildcard
  trailing := (if behind then varsOf items else trailingVars items).map nameUnlessWildcard
  named := namedVars items

theorem namedEntries_eq_ok_iff {pairs : List (String × Expr)} {entries : List (String × String)} :
    namedEntries pairs = .ok entries ↔
      (∀ pair ∈ pairs, ∃ name, pair.2 = .var name) ∧ entries = (Expr.keyword pairs).aliasPairs := by
  induction pairs generalizing entries with
  | nil => simp [namedEntries, Expr.aliasPairs, eq_comm]
  | cons pair rest ih =>
    obtain ⟨aliasName, value⟩ := pair
    rw [List.forall_mem_cons]
    by_cases hvar : ∃ name, value = .var name
    · obtain ⟨name, rfl⟩ := hvar
      simp only [namedEntries, bind_eq_ok, pure_eq_ok, ih]
      constructor
      · rintro ⟨entries, ⟨hrest, rfl⟩, rfl⟩
        exact ⟨⟨⟨name, rfl⟩, hrest⟩, rfl⟩
      · rintro ⟨⟨-, hrest⟩, rfl⟩
        exact ⟨_, ⟨hrest, rfl⟩, rfl⟩
    · have herror : namedEntries ((aliasName, value) :: rest) =
          .error (.notAVariable value.text) := by
        rw [namedEntries]
        exact fun name he => hvar ⟨name, he⟩
      simp [herror, hvar]

/-- A list is read if its entries are of the right kinds, with no second ellipsis. -/
theorem ofItems_eq_ok_iff : ofItems behind items = .ok l ↔
    (∀ e ∈ items, e.IsBinding) ∧ items.countP Expr.isEllipsis + behind.toNat ≤ 1 ∧
      l = reading behind items := by
  induction items generalizing behind l with
  | nil =>
    cases behind <;> simp [ofItems, reading, leadingVars, trailingVars, namedVars, varsOf, eq_comm]
  | cons e rest ih =>
    rw [List.forall_mem_cons]
    cases e with
    | var name =>
      simp only [ofItems, bind_eq_ok, pure_eq_ok, ih, Expr.IsBinding.var, true_and]
      constructor
      · rintro ⟨l, ⟨hentries, honce, rfl⟩, rfl⟩
        refine ⟨hentries, honce, ?_⟩
        cases behind <;> rfl
      · rintro ⟨hentries, honce, rfl⟩
        refine ⟨_, ⟨hentries, honce, rfl⟩, ?_⟩
        cases behind <;> rfl
    | ellipsis =>
      have hcount : (Expr.ellipsis :: rest).countP Expr.isEllipsis =
          rest.countP Expr.isEllipsis + 1 := List.countP_cons_of_pos rfl
      rw [hcount]
      cases behind with
      | true => simp [ofItems]
      | false =>
        have hreading : reading false (.ellipsis :: rest) = reading true rest := rfl
        simp [ofItems, ih, hreading, Expr.IsBinding.ellipsis]
    | keyword pairs =>
      simp only [ofItems, bind_eq_ok, pure_eq_ok, ih, namedEntries_eq_ok_iff,
        Expr.isBinding_keyword_iff]
      constructor
      · rintro ⟨_, ⟨hpairs, rfl⟩, l, ⟨hentries, honce, rfl⟩, rfl⟩
        refine ⟨⟨hpairs, hentries⟩, honce, ?_⟩
        cases behind <;> rfl
      · rintro ⟨⟨hpairs, hentries⟩, honce, rfl⟩
        refine ⟨_, ⟨hpairs, rfl⟩, _, ⟨hentries, honce, rfl⟩, ?_⟩
        cases behind <;> rfl
    | _ => exact iff_of_false (by simp [ofItems]) fun h => nomatch h.1.1

end BindingList

/-! ## Names and their slots -/

namespace Scope

variable {s t : Scope} {aliases : OrderedMap Nat} {places : List (String × Nat)} {name : String}
  {slot : Nat}

/-- Names slots one after the other. -/
def bindAll (s : Scope) (places : List (String × Nat)) : Except BindingFault Scope :=
  places.foldlM (fun s place => s.bind place.1 place.2) s

theorem bindAll_cons :
    s.bindAll ((name, slot) :: places) = s.bind name slot >>= fun t => t.bindAll places :=
  List.foldlM_cons

theorem bindAll_cons_eq_ok_iff : s.bindAll ((name, slot) :: places) = .ok t ↔
    ∃ u, s.bind name slot = .ok u ∧ u.bindAll places = .ok t := by
  rw [bindAll_cons, bind_eq_ok]

theorem bindAll_append_eq_ok_iff {more : List (String × Nat)} :
    s.bindAll (places ++ more) = .ok t ↔
      ∃ u, s.bindAll places = .ok u ∧ u.bindAll more = .ok t := by
  rw [bindAll, List.foldlM_append, bind_eq_ok]
  rfl

theorem slots_of_bindAll (h : s.bindAll places = .ok t) : t.slots = s.slots := by
  induction places generalizing s with
  | nil =>
    cases h
    rfl
  | cons place rest ih =>
    obtain ⟨u, hu, ht⟩ := bindAll_cons_eq_ok_iff.mp h
    rw [ih ht, (bind_eq_ok_iff.mp hu).2]

/-- Slots can be named if the names are free and differ from each other. -/
theorem exists_bindAll_iff : (∃ t, s.bindAll places = .ok t) ↔
    (places.map Prod.fst).Nodup ∧ ∀ name ∈ places.map Prod.fst, s.slot? name = none := by
  induction places generalizing s with
  | nil =>
    have hdone : s.bindAll [] = .ok s := rfl
    simp [hdone]
  | cons place rest ih =>
    obtain ⟨name, slot⟩ := place
    have hstep : (∃ t, s.bindAll ((name, slot) :: rest) = .ok t) ↔
        ∃ u, s.bind name slot = .ok u ∧ ∃ t, u.bindAll rest = .ok t := by
      simp only [bindAll_cons_eq_ok_iff]
      exact ⟨fun ⟨t, u, hu, ht⟩ => ⟨u, hu, t, ht⟩, fun ⟨u, hu, t, ht⟩ => ⟨t, u, hu, ht⟩⟩
    rw [hstep, List.map_cons, List.nodup_cons, List.forall_mem_cons]
    constructor
    · rintro ⟨u, hu, hrest⟩
      obtain ⟨hnodup, hfree⟩ := ih.mp hrest
      have hslot := slot?_of_bind hu
      have hname : name ∉ rest.map Prod.fst := by
        intro hm
        have hnone := hfree name hm
        rw [hslot, if_pos rfl] at hnone
        cases hnone
      refine ⟨⟨hname, hnodup⟩, (bind_eq_ok_iff.mp hu).1, fun n hn => ?_⟩
      have hnone := hfree n hn
      rwa [hslot, if_neg (ne_of_mem_of_not_mem hn hname)] at hnone
    · rintro ⟨⟨hname, hnodup⟩, hnew, hfree⟩
      have hu : s.bind name slot = .ok _ := bind_eq_ok_iff.mpr ⟨hnew, rfl⟩
      refine ⟨_, hu, ih.mpr ⟨hnodup, fun n hn => ?_⟩⟩
      rw [slot?_of_bind hu, if_neg (ne_of_mem_of_not_mem hn hname)]
      exact hfree n hn

/-- Exactly the named slots are added. -/
theorem slot?_of_bindAll (h : s.bindAll places = .ok t) :
    t.slot? name = some slot ↔ (name, slot) ∈ places ∨ s.slot? name = some slot := by
  induction places generalizing s with
  | nil =>
    cases h
    simp
  | cons place rest ih =>
    obtain ⟨n, k⟩ := place
    obtain ⟨u, hu, ht⟩ := bindAll_cons_eq_ok_iff.mp h
    have hfree : s.slot? n = none := (bind_eq_ok_iff.mp hu).1
    rw [ih ht, slot?_of_bind hu, List.mem_cons]
    by_cases hname : name = n
    · subst hname
      simp [hfree, eq_comm, or_comm]
    · simp [hname]

/-- The names among `names` with their slots, which begin at `first`. -/
def placed (first : Nat) (names : List (Option String)) : List (String × Nat) :=
  (names.zipIdx first).filterMap fun entry => entry.1.map (·, entry.2)

theorem mem_placed {first : Nat} {names : List (Option String)} :
    (name, slot) ∈ placed first names ↔ ∃ i, names[i]? = some (some name) ∧ slot = first + i := by
  have hmem : (name, slot) ∈ placed first names ↔ (some name, slot) ∈ names.zipIdx first := by
    simp [placed]
  rw [hmem, List.mem_zipIdx_iff_le_and_getElem?_sub]
  constructor
  · rintro ⟨hle, hget⟩
    exact ⟨slot - first, hget, (Nat.add_sub_cancel' hle).symm⟩
  · rintro ⟨i, hget, rfl⟩
    rw [Nat.add_sub_cancel_left]
    exact ⟨Nat.le_add_right first i, hget⟩

theorem names_placed (first : Nat) (names : List (Option String)) :
    (placed first names).map Prod.fst = names.filterMap id := by
  have hfst : (names.zipIdx first).map Prod.fst = names := List.zipIdx_map_fst first names
  conv_rhs => rw [← hfst, List.filterMap_map]
  rw [placed, List.map_filterMap]
  congr 1
  funext entry
  simp [Function.comp_def]

theorem bindFrom_eq_bindAll {first : Nat} {names : List (Option String)} :
    s.bindFrom first names = s.bindAll (placed first names) := by
  induction names generalizing s first with
  | nil => rfl
  | cons name rest ih =>
    cases name with
    | none => exact ih
    | some name =>
      have hplaced : placed first (some name :: rest) =
          (name, first) :: placed (first + 1) rest := rfl
      rw [hplaced, bindFrom, bindAll_cons]
      cases s.bind name first with
      | error fault => rfl
      | ok u => exact ih

/-- Variables with the slots of the aliases that are known. -/
def aliased (aliases : OrderedMap Nat) (named : List (String × String)) : List (String × Nat) :=
  named.filterMap fun entry => (aliases.get? entry.1).map (entry.2, ·)

theorem bindNamed_eq_ok_iff {named : List (String × String)} :
    s.bindNamed aliases named = .ok t ↔
      (∀ entry ∈ named, ∃ slot < s.slots, aliases.get? entry.1 = some slot) ∧
        s.bindAll (aliased aliases named) = .ok t := by
  induction named generalizing s with
  | nil => simp [bindNamed, aliased, bindAll, pure_eq_ok]
  | cons entry rest ih =>
    obtain ⟨aliasName, name⟩ := entry
    rw [List.forall_mem_cons]
    cases hslot : aliases.get? aliasName with
    | none => simp [bindNamed, hslot]
    | some slot =>
      have haliased : aliased aliases ((aliasName, name) :: rest) =
          (name, slot) :: aliased aliases rest := by simp [aliased, hslot]
      rw [haliased, bindAll_cons]
      by_cases hview : slot < s.slots
      · cases hu : s.bind name slot with
        | error fault => simp [bindNamed, hslot, hview, hu, Option.filter_some]
        | ok u =>
          have hslots : u.slots = s.slots := by rw [(bind_eq_ok_iff.mp hu).2]
          simp [bindNamed, hslot, hview, hu, Option.filter_some, ih, hslots]
      · simp [bindNamed, hslot, hview, Option.filter_some]

theorem mem_aliased {named : List (String × String)} : (name, slot) ∈ aliased aliases named ↔
    ∃ aliasName, (aliasName, name) ∈ named ∧ aliases.get? aliasName = some slot := by
  simp [aliased]

theorem names_aliased {slots : Nat} {named : List (String × String)}
    (h : ∀ entry ∈ named, ∃ slot < slots, aliases.get? entry.1 = some slot) :
    (aliased aliases named).map Prod.fst = named.map Prod.snd := by
  rw [aliased, List.map_filterMap, ← List.filterMap_eq_map]
  refine List.filterMap_congr fun entry he => ?_
  obtain ⟨slot, -, hslot⟩ := h entry he
  simp [hslot]

end Scope

namespace BindingList

variable {slots : Nat} {aliases : OrderedMap Nat} {items : List Expr} {l : BindingList} {s : Scope}
  {name : String} {slot : Nat}

/-- The names that a list gives, with their slots. -/
def places (l : BindingList) (slots : Nat) (aliases : OrderedMap Nat) : List (String × Nat) :=
  Scope.placed 0 l.leading ++ Scope.placed (slots - l.trailing.length) l.trailing ++
    Scope.aliased aliases l.named

theorem resolve_eq_ok_iff_bindAll : l.resolve slots aliases = .ok s ↔
    l.positionalCount ≤ slots ∧
      (∀ entry ∈ l.named, ∃ slot < slots, aliases.get? entry.1 = some slot) ∧
      Scope.bindAll ⟨.empty, slots⟩ (l.places slots aliases) = .ok s := by
  simp only [resolve_eq_ok_iff, places, Scope.bindAll_append_eq_ok_iff, Scope.bindFrom_eq_bindAll,
    Scope.bindNamed_eq_ok_iff]
  refine and_congr_right fun _ => ?_
  constructor
  · rintro ⟨u, v, hu, hv, hview, hs⟩
    rw [Scope.slots_of_bindAll hv, Scope.slots_of_bindAll hu] at hview
    exact ⟨hview, v, ⟨u, hu, hv⟩, hs⟩
  · rintro ⟨hview, v, ⟨u, hu, hv⟩, hs⟩
    refine ⟨u, v, hu, hv, ?_, hs⟩
    rwa [Scope.slots_of_bindAll hv, Scope.slots_of_bindAll hu]

theorem filterMap_nameUnlessWildcard (vars : List String) :
    (vars.map nameUnlessWildcard).filterMap id = vars.filter (· ≠ wildcard) := by
  rw [List.filterMap_map, ← List.filterMap_eq_filter]
  refine List.filterMap_congr fun name _ => ?_
  by_cases hname : name = wildcard <;> simp [nameUnlessWildcard, Option.guard, hname]

theorem getElem?_nameUnlessWildcard {vars : List String} {i : Nat} :
    (vars.map nameUnlessWildcard)[i]? = some (some name) ↔
      vars[i]? = some name ∧ name ≠ wildcard := by
  rw [List.getElem?_map, Option.map_eq_some_iff]
  constructor
  · rintro ⟨var, hvar, hname⟩
    unfold nameUnlessWildcard at hname
    split at hname
    · cases hname
    · cases hname
      exact ⟨hvar, ‹_›⟩
  · rintro ⟨hvar, hname⟩
    exact ⟨name, hvar, if_neg hname⟩

/-- What lets a list of entries resolve against `slots` slots with their aliases. -/
structure Resolvable (slots : Nat) (aliases : OrderedMap Nat) (items : List Expr) : Prop where
  entries : ∀ e ∈ items, e.IsBinding
  once : items.countP Expr.isEllipsis ≤ 1
  fits : (leadingVars items).length + (trailingVars items).length ≤ slots
  inView : ∀ entry ∈ namedVars items, ∃ slot < slots, aliases.get? entry.1 = some slot
  distinct : ((leadingVars items ++ trailingVars items ++ (namedVars items).map Prod.snd).filter
    (· ≠ wildcard)).Nodup

/-- The slots that a list of entries gives to variables. -/
inductive Names (slots : Nat) (aliases : OrderedMap Nat) (items : List Expr) : String → Nat → Prop
  | leading {i : Nat} {name : String} (hvar : (leadingVars items)[i]? = some name)
      (hname : name ≠ wildcard) : Names slots aliases items name i
  | trailing {j : Nat} {name : String} (hvar : (trailingVars items)[j]? = some name)
      (hname : name ≠ wildcard) :
      Names slots aliases items name (slots - (trailingVars items).length + j)
  | named {aliasName name : String} {slot : Nat} (hvar : (aliasName, name) ∈ namedVars items)
      (hslot : aliases.get? aliasName = some slot) : Names slots aliases items name slot

theorem mem_places_reading :
    (name, slot) ∈ (reading false items).places slots aliases ↔
      Names slots aliases items name slot := by
  simp only [places, reading, List.mem_append, Scope.mem_placed, Scope.mem_aliased,
    getElem?_nameUnlessWildcard, Bool.false_eq_true, ↓reduceIte, List.length_map, Nat.zero_add]
  constructor
  · rintro ((⟨i, ⟨hvar, hname⟩, rfl⟩ | ⟨j, ⟨hvar, hname⟩, rfl⟩) | ⟨aliasName, hvar, hslot⟩)
    · exact .leading hvar hname
    · exact .trailing hvar hname
    · exact .named hvar hslot
  · rintro (⟨hvar, hname⟩ | ⟨hvar, hname⟩ | ⟨hvar, hslot⟩)
    · exact .inl (.inl ⟨_, ⟨hvar, hname⟩, rfl⟩)
    · exact .inl (.inr ⟨_, ⟨hvar, hname⟩, rfl⟩)
    · exact .inr ⟨_, hvar, hslot⟩

theorem names_places_reading
    (hview : ∀ entry ∈ namedVars items, ∃ slot < slots, aliases.get? entry.1 = some slot) :
    ((reading false items).places slots aliases).map Prod.fst =
      (leadingVars items ++ trailingVars items).filter (· ≠ wildcard) ++
        (namedVars items).map Prod.snd := by
  simp only [places, reading, List.map_append, Scope.names_placed, Scope.names_aliased hview,
    filterMap_nameUnlessWildcard, List.filter_append, Bool.false_eq_true, ↓reduceIte]

end BindingList

/-! ## The scope of a list -/

namespace Scope

variable {slots : Nat} {aliases : OrderedMap Nat} {items : List Expr} {s : Scope} {name : String}
  {slot : Nat}

open BindingList in
theorem resolve_list_eq_ok_iff_bindAll : resolve slots aliases (.list items) = .ok s ↔
    ((∀ e ∈ items, e.IsBinding) ∧ items.countP Expr.isEllipsis ≤ 1) ∧
      (leadingVars items).length + (trailingVars items).length ≤ slots ∧
      (∀ entry ∈ namedVars items, ∃ slot < slots, aliases.get? entry.1 = some slot) ∧
      bindAll ⟨.empty, slots⟩ ((reading false items).places slots aliases) = .ok s := by
  have hcount : (reading false items).positionalCount =
      (leadingVars items).length + (trailingVars items).length := by
    simp [positionalCount, reading]
  rw [resolve_list_eq_ok_iff, ← hcount]
  constructor
  · rintro ⟨l, hl, hs⟩
    obtain ⟨hentries, honce, rfl⟩ := ofItems_eq_ok_iff.mp hl
    exact ⟨⟨hentries, honce⟩, resolve_eq_ok_iff_bindAll.mp hs⟩
  · rintro ⟨⟨hentries, honce⟩, hs⟩
    exact ⟨_, ofItems_eq_ok_iff.mpr ⟨hentries, honce, rfl⟩, resolve_eq_ok_iff_bindAll.mpr hs⟩

theorem exists_resolve_list_iff
    (hnamed : ∀ entry ∈ BindingList.namedVars items, entry.2 ≠ wildcard) :
    (∃ s, resolve slots aliases (.list items) = .ok s) ↔
      BindingList.Resolvable slots aliases items := by
  have hvars : ((BindingList.namedVars items).map Prod.snd).filter (· ≠ wildcard) =
      (BindingList.namedVars items).map Prod.snd := by
    refine List.filter_eq_self.mpr fun name hname => ?_
    obtain ⟨entry, hentry, rfl⟩ := List.mem_map.mp hname
    exact decide_eq_true (hnamed entry hentry)
  constructor
  · rintro ⟨s, h⟩
    obtain ⟨⟨hentries, honce⟩, hfits, hview, hs⟩ := resolve_list_eq_ok_iff_bindAll.mp h
    have hdistinct := (exists_bindAll_iff.mp ⟨s, hs⟩).1
    rw [BindingList.names_places_reading hview, ← hvars, ← List.filter_append] at hdistinct
    exact ⟨hentries, honce, hfits, hview, hdistinct⟩
  · intro h
    have hdistinct := h.distinct
    rw [List.filter_append, hvars, ← BindingList.names_places_reading h.inView] at hdistinct
    have hfree : ∀ name, slot? ⟨.empty, slots⟩ name = none := fun _ => rfl
    obtain ⟨s, hs⟩ := exists_bindAll_iff.mpr ⟨hdistinct, fun name _ => hfree name⟩
    exact ⟨s, resolve_list_eq_ok_iff_bindAll.mpr ⟨⟨h.entries, h.once⟩, h.fits, h.inView, hs⟩⟩

/-- A list that resolves gives its variables their slots, and nothing else. -/
theorem slot?_of_resolve_list (h : resolve slots aliases (.list items) = .ok s) :
    s.slot? name = some slot ↔ BindingList.Names slots aliases items name slot := by
  obtain ⟨-, -, -, hs⟩ := resolve_list_eq_ok_iff_bindAll.mp h
  have hempty : slot? ⟨.empty, slots⟩ name ≠ some slot := fun hslot => nomatch hslot
  rw [slot?_of_bindAll hs, or_iff_left hempty, BindingList.mem_places_reading]

theorem slot?_wildcard_of_resolve_list
    (hnamed : ∀ entry ∈ BindingList.namedVars items, entry.2 ≠ wildcard)
    (h : resolve slots aliases (.list items) = .ok s) : s.slot? wildcard = none := by
  refine Option.eq_none_iff_forall_ne_some.mpr fun slot hslot => ?_
  cases (slot?_of_resolve_list h).mp hslot with
  | leading _ hname => exact hname rfl
  | trailing _ hname => exact hname rfl
  | named hvar _ => exact hnamed _ hvar rfl

theorem exists_list_of_resolve {bindings : Expr} (h : resolve slots aliases bindings = .ok s) :
    ∃ items, bindings = .list items := by
  cases bindings
  case list items => exact ⟨items, rfl⟩
  all_goals simp [resolve] at h

theorem code_of_resolve {bindings : Expr} {f : Failure}
    (h : resolve slots aliases bindings = .error f) : f.code = "JOIN_001" := by
  unfold resolve at h
  dsimp only at h
  split at h
  · cases hs : ofItems slots aliases _ with
    | ok s =>
      rw [hs] at h
      cases h
    | error fault =>
      rw [hs] at h
      cases h
      rfl
  · cases h
    rfl

/-- A binding list resolves exactly if its entries fit the slots and the aliases in view. The scope
has every variable at the slot of its entry and no other name; every failure is one of bindings. -/
theorem resolve_exactly (slots : Nat) (aliases : OrderedMap Nat) {bindings : Expr}
    (hnamed : ∀ items, bindings = .list items →
      ∀ entry ∈ BindingList.namedVars items, entry.2 ≠ wildcard) :
    ((∃ s, resolve slots aliases bindings = .ok s) ↔
      ∃ items, bindings = .list items ∧ BindingList.Resolvable slots aliases items) ∧
    (∀ s, resolve slots aliases bindings = .ok s → ∃ items, bindings = .list items ∧
      s.slots = slots ∧ s.slot? wildcard = none ∧
      ∀ name slot, s.slot? name = some slot ↔
        BindingList.Names slots aliases items name slot) ∧
    ∀ f, resolve slots aliases bindings = .error f → f.code = "JOIN_001" := by
  refine ⟨⟨?_, ?_⟩, ?_, fun f hf => code_of_resolve hf⟩
  · rintro ⟨s, hs⟩
    obtain ⟨items, rfl⟩ := exists_list_of_resolve hs
    exact ⟨items, rfl, (exists_resolve_list_iff (hnamed items rfl)).mp ⟨s, hs⟩⟩
  · rintro ⟨items, rfl, h⟩
    exact (exists_resolve_list_iff (hnamed items rfl)).mpr h
  · intro s hs
    obtain ⟨items, rfl⟩ := exists_list_of_resolve hs
    exact ⟨items, rfl, (inView_of_resolve hs).2,
      slot?_wildcard_of_resolve_list (hnamed items rfl) hs, fun name slot => slot?_of_resolve_list hs⟩

end Scope

namespace Sample

/-- The list `[p, ..., c, author: a]`. -/
def mixedBindings : List Expr :=
  [.var "p", .ellipsis, .var "c", .keyword [("author", .var "a")]]

/-- Against four slots the list is about the first, the last and the one of the author; two slots
are enough for its variables, and one is not. -/
theorem resolve_exactly_mixedBindings :
    (∃ s, Scope.resolve 4 (.ofList [("author", 1)]) (.list mixedBindings) = .ok s ∧ s.slots = 4 ∧
      s.slot? "p" = some 0 ∧ s.slot? "c" = some 3 ∧ s.slot? "a" = some 1) ∧
    (∃ s, Scope.resolve 2 (.ofList [("author", 0)]) (.list mixedBindings) = .ok s) ∧
    ¬ ∃ s, Scope.resolve 1 (.ofList [("author", 0)]) (.list mixedBindings) = .ok s := by
  have hnamed : ∀ items, Expr.list mixedBindings = .list items →
      ∀ entry ∈ BindingList.namedVars items, entry.2 ≠ wildcard := by
    rintro _ ⟨⟩
    decide
  have hentries : ∀ e ∈ mixedBindings, e.IsBinding := by
    simp [mixedBindings, Expr.IsBinding.var, Expr.IsBinding.ellipsis, Expr.isBinding_keyword_iff]
  have hresolvable : ∀ slots slot, 2 ≤ slots → slot < slots →
      BindingList.Resolvable slots (.ofList [("author", slot)]) mixedBindings := by
    intro slots slot hslots hslot
    refine ⟨hentries, by decide, hslots, fun entry hentry => ?_, by decide⟩
    cases List.mem_singleton.mp hentry
    exact ⟨slot, hslot, rfl⟩
  refine ⟨?_, ?_, ?_⟩
  · obtain ⟨hok, hnames, -⟩ := Scope.resolve_exactly 4 (.ofList [("author", 1)]) hnamed
    obtain ⟨s, hs⟩ := hok.mpr ⟨_, rfl, hresolvable 4 1 (by decide) (by decide)⟩
    obtain ⟨_, ⟨⟩, hslots, -, hslot⟩ := hnames s hs
    refine ⟨s, hs, hslots, (hslot _ _).mpr ?_, (hslot _ _).mpr ?_, (hslot _ _).mpr ?_⟩
    · exact .leading rfl (by decide)
    · exact .trailing (j := 0) rfl (by decide)
    · exact .named (List.mem_singleton.mpr rfl) rfl
  · have hok := (Scope.resolve_exactly 2 (.ofList [("author", 0)]) hnamed).1
    exact hok.mpr ⟨_, rfl, hresolvable 2 0 (by decide) (by decide)⟩
  · have hok := (Scope.resolve_exactly 1 (.ofList [("author", 0)]) hnamed).1
    intro h
    obtain ⟨_, ⟨⟩, h⟩ := hok.mp h
    exact absurd h.fits (by decide)

end Sample

end StagedJoin
