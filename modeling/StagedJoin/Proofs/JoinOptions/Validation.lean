import StagedJoin.Failure.Wording
import StagedJoin.Proofs.Compiler.Options

/-!
When options are valid, and why they are refused. Valid options are pairs with distinct
keys, of which every key is in the table and every value is accepted by all
specifications of its key. Of several reasons to refuse options the one that is reported
is a repeated key before an unknown one, both in the order of the pairs, and these before
a value, in the order of the table.
-/
namespace StagedJoin

variable {table : List OptionSpec} {context : OptionContext} {options : Option Expr}
  {pairs : List (String × Expr)} {f : Failure}

/-! ## Values -/

namespace Expr

variable {e : Expr} {kind : LiteralKind}

/-- The literals of a kind. -/
inductive OfKind : LiteralKind → Expr → Prop
  | atom (name : String) : OfKind .atom (.atom name)
  | string (s : String) : OfKind .string (.string s)
  | integer (n : Int64) : OfKind .integer (.literal (.integer n))
  | float (x : Binary64) : OfKind .float (.literal (.float x))
  | boolean (b : Bool) : OfKind .boolean (.literal (.boolean b))
  | stringList (ss : List String) : OfKind .stringList (.list (ss.map .string))

theorem asString?_eq_some_iff {s : String} : e.asString? = some s ↔ e = .string s := by
  unfold asString?
  split
  · simp [string]
  · rename_i hne
    exact iff_of_false (by simp) fun he => hne s he

theorem all_asString?_iff {items : List Expr} :
    items.all (·.asString?.isSome) = true ↔ ∃ ss : List String, items = ss.map .string := by
  induction items with
  | nil => exact iff_of_true rfl ⟨[], rfl⟩
  | cons e rest ih =>
    rw [List.all_cons, Bool.and_eq_true, ih, Option.isSome_iff_exists]
    constructor
    · rintro ⟨⟨s, hs⟩, ss, rfl⟩
      rw [asString?_eq_some_iff] at hs
      exact ⟨s :: ss, by rw [hs, List.map_cons]⟩
    · rintro ⟨ss, hss⟩
      cases ss with
      | nil => cases hss
      | cons s ss =>
        obtain ⟨rfl, rfl⟩ := List.cons.inj hss
        exact ⟨⟨s, rfl⟩, ss, rfl⟩

theorem literalKind?_eq_some_iff : e.literalKind? = some kind ↔ e.OfKind kind := by
  constructor
  · intro h
    unfold literalKind? at h
    split at h
    case h_6 items =>
      split at h
      · rename_i hall
        cases h
        obtain ⟨ss, rfl⟩ := all_asString?_iff.mp hall
        exact .stringList ss
      · cases h
    all_goals
      cases h
    exacts [.atom _, .string _, .integer _, .float _, .boolean _]
  · intro h
    cases h with
    | stringList ss => exact if_pos (all_asString?_iff.mpr ⟨ss, rfl⟩)
    | _ => rfl

end Expr

namespace OptionSpec

variable {spec : OptionSpec} {value : Expr}

/-- The values that an option may be given. -/
inductive Accepts (spec : OptionSpec) : Expr → Prop
  | condition (h : spec.isCondition = true) (value : Expr) : spec.Accepts value
  | interpolated (h : spec.interpolated = true) (p : Placeholder) : spec.Accepts (.interpolate p)
  | literal {kind : LiteralKind} {value : Expr} (h : kind ∈ spec.accepts)
      (hkind : value.OfKind kind) : spec.Accepts value

theorem takes_iff_accepts : spec.takes value = true ↔ spec.Accepts value := by
  constructor
  · intro h
    simp only [takes, Bool.or_eq_true, Bool.and_eq_true] at h
    rcases h with (hcondition | ⟨hvalue, hspec⟩) | hliteral
    · exact .condition hcondition value
    · unfold Expr.isInterpolated at hvalue
      split at hvalue
      · exact .interpolated hspec _
      · cases hvalue
    · split at hliteral
      · rename_i kind hkind
        exact .literal (List.contains_iff_mem.mp hliteral) (Expr.literalKind?_eq_some_iff.mp hkind)
      · cases hliteral
  · intro h
    cases h with
    | condition h => simp only [takes, h, Bool.true_or]
    | interpolated h p => simp only [takes, h, Expr.isInterpolated, Bool.and_true, Bool.or_true,
        Bool.true_or]
    | literal h hkind =>
      simp only [takes, Expr.literalKind?_eq_some_iff.mpr hkind, List.contains_iff_mem.mpr h,
        Bool.or_true]

theorem check_eq_ok_iff {u : Unit} : spec.check value = .ok u ↔ spec.Accepts value := by
  rw [← takes_iff_accepts, check]
  split <;> simp_all

theorem check_eq_error_iff : spec.check value = .error f ↔
    ¬ spec.Accepts value ∧ f = .optionValue spec.name spec.expected value.text := by
  rw [← takes_iff_accepts, check]
  split
  · rename_i htakes
    exact iff_of_false (by simp) fun h => h.1 htakes
  · rename_i htakes
    constructor
    · intro h
      cases h
      exact ⟨htakes, rfl⟩
    · rintro ⟨-, rfl⟩
      rfl

end OptionSpec

/-! ## Checks in order -/

namespace JoinOptions

/-- A key that the table has. -/
def Known (table : List OptionSpec) (key : String) : Prop := ∃ spec ∈ table, spec.name = key

theorem nodup_of_collect {before entries : OrderedMap Expr}
    (h : collect before pairs = .ok entries) : (before.keys ++ pairs.map Prod.fst).Nodup := by
  have hdistinct := entries.distinct
  rwa [entries_of_collect h, List.map_append] at hdistinct

/-- The first key that comes a second time is reported. -/
theorem collect_eq_error_iff {before : OrderedMap Expr} {key : String} :
    collect before pairs = .error key ↔ ∃ front value back, pairs = front ++ (key, value) :: back ∧
      (before.keys ++ front.map Prod.fst).Nodup ∧ key ∈ before.keys ++ front.map Prod.fst := by
  induction pairs generalizing before with
  | nil => simp [collect]
  | cons pair rest ih =>
    obtain ⟨k, v⟩ := pair
    have hcontains : before.contains k = true ↔ k ∈ before.keys := by
      rw [OrderedMap.contains, Option.isSome_iff_ne_none, ne_eq, OrderedMap.get?_eq_none_iff,
        not_not]
    rw [collect]
    by_cases hk : before.contains k = true
    · rw [if_pos hk]
      have hmem := hcontains.mp hk
      constructor
      · intro h
        cases h
        have hdistinct : before.keys.Nodup := before.distinct
        exact ⟨[], v, rest, rfl, by simpa using hdistinct, by simpa using hmem⟩
      · rintro ⟨front, value, back, hpairs, hnodup, -⟩
        cases front with
        | nil =>
          cases hpairs
          rfl
        | cons first front =>
          cases hpairs
          rw [List.nodup_append] at hnodup
          exact absurd rfl (hnodup.2.2 k hmem k List.mem_cons_self)
    · rw [if_neg hk, ih]
      have hnone : before.get? k = none := by simpa using hk
      have hkeys : (before.insert k v).keys = before.keys ++ [k] := by
        rw [OrderedMap.keys, OrderedMap.entries_insert_of_get?_none _ _ _ hnone, List.map_append]
        rfl
      have hfront : ∀ front : List (String × Expr), (before.insert k v).keys ++ front.map Prod.fst =
          before.keys ++ ((k, v) :: front).map Prod.fst := by
        intro front
        rw [hkeys, List.append_assoc]
        rfl
      simp only [hfront]
      constructor
      · rintro ⟨front, value, back, rfl, hnodup, hmem⟩
        exact ⟨(k, v) :: front, value, back, rfl, hnodup, hmem⟩
      · rintro ⟨front, value, back, hpairs, hnodup, hmem⟩
        cases front with
        | nil =>
          cases hpairs
          exact absurd (hcontains.mpr (by simpa using hmem)) hk
        | cons first front =>
          cases hpairs
          exact ⟨front, value, back, rfl, hnodup, hmem⟩

theorem collect_of_nodup (h : (pairs.map Prod.fst).Nodup) :
    collect .empty pairs = .ok ⟨pairs, h⟩ := by
  cases hcollect : collect .empty pairs with
  | ok entries => exact congrArg _ (OrderedMap.ext_entries (entries_of_collect hcollect))
  | error key =>
    obtain ⟨front, value, back, rfl, -, hmem⟩ := collect_eq_error_iff.mp hcollect
    rw [List.map_append, List.nodup_append] at h
    exact absurd rfl (h.2.2 key hmem key List.mem_cons_self)

theorem unknownKey?_eq_none_iff {entries : OrderedMap Expr} :
    unknownKey? table entries = none ↔ ∀ pair ∈ entries.entries, Known table pair.1 := by
  simp [unknownKey?, OrderedMap.keys, Known]

/-- The first unknown key is reported. -/
theorem unknownKey?_eq_some_iff {entries : OrderedMap Expr} {key : String} :
    unknownKey? table entries = some key ↔ ∃ front value back,
      entries.entries = front ++ (key, value) :: back ∧ (∀ pair ∈ front, Known table pair.1) ∧
        ¬ Known table key := by
  rw [unknownKey?, OrderedMap.keys, List.find?_map, Option.map_eq_some_iff]
  simp only [List.find?_eq_some_iff_append]
  constructor
  · rintro ⟨⟨k, v⟩, ⟨hkey, front, back, hentries, hfront⟩, rfl⟩
    refine ⟨front, v, back, hentries, ?_, by simpa [Known] using hkey⟩
    simpa [Known] using hfront
  · rintro ⟨front, value, back, hentries, hfront, hkey⟩
    refine ⟨(key, value), ⟨by simpa [Known] using hkey, front, back, hentries, ?_⟩, rfl⟩
    simpa [Known] using hfront

/-- Every given value is accepted by each of the specifications of its key. -/
def Accepted (table : List OptionSpec) (pairs : List (String × Expr)) : Prop :=
  ∀ spec ∈ table, ∀ value, (spec.name, value) ∈ pairs → spec.Accepts value

theorem checkValue_eq_ok_iff {entries : OrderedMap Expr} {spec : OptionSpec} {u : Unit} :
    (entries.get? spec.name).elim (.ok u) spec.check = .ok u ↔
      ∀ value, (spec.name, value) ∈ entries.entries → spec.Accepts value := by
  simp only [OrderedMap.mem_entries_iff]
  cases entries.get? spec.name with
  | none => simp
  | some value => simp [OptionSpec.check_eq_ok_iff]

theorem checkValue_eq_error_iff {entries : OrderedMap Expr} {spec : OptionSpec} {u : Unit} :
    (entries.get? spec.name).elim (.ok u) spec.check = .error f ↔ ∃ value,
      (spec.name, value) ∈ entries.entries ∧ ¬ spec.Accepts value ∧
        f = .optionValue spec.name spec.expected value.text := by
  simp only [OrderedMap.mem_entries_iff]
  cases entries.get? spec.name with
  | none => simp
  | some value => simp [OptionSpec.check_eq_error_iff]

theorem checkValues_eq_ok_iff {entries : OrderedMap Expr} {u : Unit} :
    checkValues entries table = .ok u ↔ Accepted table entries.entries := by
  induction table with
  | nil => exact iff_of_true rfl fun spec hs => absurd hs List.not_mem_nil
  | cons spec rest ih =>
    rw [checkValues, Accepted, List.forall_mem_cons, ← checkValue_eq_ok_iff (u := u)]
    split
    · rename_i failure hspec
      simp [hspec]
    · rename_i hspec
      rw [ih]
      exact ⟨fun h => ⟨hspec, h⟩, fun h => h.2⟩

/-- The first specification that does not accept its value is reported. -/
theorem checkValues_eq_error_iff {entries : OrderedMap Expr} :
    checkValues entries table = .error f ↔ ∃ front spec back value,
      table = front ++ spec :: back ∧ Accepted front entries.entries ∧
        (spec.name, value) ∈ entries.entries ∧ ¬ spec.Accepts value ∧
          f = .optionValue spec.name spec.expected value.text := by
  induction table with
  | nil => simp [checkValues]
  | cons spec rest ih =>
    rw [checkValues]
    split
    · rename_i failure hspec
      obtain ⟨value, hmem, hrejects, rfl⟩ := checkValue_eq_error_iff.mp hspec
      constructor
      · intro h
        cases h
        exact ⟨[], spec, rest, value, rfl, fun s hs => absurd hs List.not_mem_nil, hmem,
          hrejects, rfl⟩
      · rintro ⟨front, s, back, w, htable, hfront, hw, hs, rfl⟩
        cases front with
        | nil =>
          cases htable
          rw [OrderedMap.mem_entries_iff] at hmem hw
          cases hmem.symm.trans hw
          rfl
        | cons first front =>
          cases htable
          exact absurd (hfront spec List.mem_cons_self value hmem) hrejects
    · rename_i hspec
      have haccepts := checkValue_eq_ok_iff.mp hspec
      rw [ih]
      constructor
      · rintro ⟨front, s, back, value, rfl, hfront, hrest⟩
        exact ⟨spec :: front, s, back, value, rfl,
          List.forall_mem_cons.mpr ⟨haccepts, hfront⟩, hrest⟩
      · rintro ⟨front, s, back, value, htable, hfront, hmem, hs, rfl⟩
        cases front with
        | nil =>
          cases htable
          exact absurd (haccepts value hmem) hs
        | cons first front =>
          cases htable
          exact ⟨front, s, back, value, rfl, (List.forall_mem_cons.mp hfront).2, hmem, hs, rfl⟩

/-! ## Valid and refused options -/

/-- The pairs that options consist of: none, or those of a keyword list. -/
inductive Given : Option Expr → List (String × Expr) → Prop
  | absent : Given none []
  | empty : Given (some (.list [])) []
  | keyword (pairs : List (String × Expr)) : Given (some (.keyword pairs)) pairs

structure Valid (table : List OptionSpec) (pairs : List (String × Expr)) : Prop where
  distinct : (pairs.map Prod.fst).Nodup
  known : ∀ pair ∈ pairs, Known table pair.1
  accepted : Accepted table pairs

/-- Why options are refused, with the code of the report. -/
inductive Refused (table : List OptionSpec) (context : OptionContext) :
    Option Expr → String → Failure → Prop
  | notKeyword {e : Expr} (h : ∀ pairs, ¬ Given (some e) pairs) :
      Refused table context (some e) "JOIN_005" (.options .notKeyword context e.text)
  | repeatedKey {options : Option Expr} {front back : List (String × Expr)} {key : String}
      {value : Expr} (h : Given options (front ++ (key, value) :: back))
      (hdistinct : (front.map Prod.fst).Nodup) (hkey : key ∈ front.map Prod.fst) :
      Refused table context options "JOIN_005" (.options (.repeatedKey key) context key)
  | unknownKey {options : Option Expr} {pairs front back : List (String × Expr)} {key : String}
      {value : Expr} (h : Given options pairs) (hdistinct : (pairs.map Prod.fst).Nodup)
      (hpairs : pairs = front ++ (key, value) :: back) (hknown : ∀ pair ∈ front, Known table pair.1)
      (hkey : ¬ Known table key) :
      Refused table context options "JOIN_003" (.unknownOption key context)
  | value {options : Option Expr} {pairs : List (String × Expr)} {front back : List OptionSpec}
      {spec : OptionSpec} {value : Expr} (h : Given options pairs)
      (hdistinct : (pairs.map Prod.fst).Nodup) (hknown : ∀ pair ∈ pairs, Known table pair.1)
      (htable : table = front ++ spec :: back) (hfront : Accepted front pairs)
      (hvalue : (spec.name, value) ∈ pairs) (hspec : ¬ spec.Accepts value) :
      Refused table context options "JOIN_004" (.optionValue spec.name spec.expected value.text)

theorem given_some_iff {e : Expr} : Given (some e) pairs ↔ e.asKeyword? = some pairs := by
  constructor
  · intro h
    cases h <;> rfl
  · intro h
    unfold Expr.asKeyword? at h
    split at h
    · cases h
      exact .keyword pairs
    · cases h
      exact .empty
    · cases h

theorem Given.ofExpr?_eq (h : Given options pairs) :
    ofExpr? table context options = ofPairs table context pairs := by
  cases h with
  | absent =>
    -- options that are left out are not checked, but would pass as an empty list
    have hvalues : checkValues .empty table = .ok () :=
      checkValues_eq_ok_iff.mpr fun spec _ value hmem => nomatch hmem
    have hknown : unknownKey? table .empty = none := rfl
    simp only [ofExpr?, ofPairs, collect, hknown, hvalues]
  | empty => rfl
  | keyword => rfl

theorem given_or_not_keyword (options : Option Expr) :
    (∃ pairs, Given options pairs) ∨ ∃ e, options = some e ∧ ∀ pairs, ¬ Given (some e) pairs := by
  cases options with
  | none => exact .inl ⟨[], .absent⟩
  | some e =>
    by_cases h : ∃ pairs, Given (some e) pairs
    · exact .inl h
    · exact .inr ⟨e, rfl, fun pairs hp => h ⟨pairs, hp⟩⟩

/-- Options are checked key by key and then value by value. -/
theorem ofPairs_of_nodup (h : (pairs.map Prod.fst).Nodup) :
    ofPairs table context pairs =
      match unknownKey? table ⟨pairs, h⟩ with
      | some key => .error (.unknownOption key context)
      | none => (checkValues ⟨pairs, h⟩ table).map fun _ => ⟨⟨pairs, h⟩⟩ := by
  simp only [ofPairs, collect_of_nodup h]
  cases unknownKey? table ⟨pairs, h⟩ with
  | some key => rfl
  | none => cases checkValues ⟨pairs, h⟩ table <;> rfl

theorem ofPairs_eq_ok_iff {o : JoinOptions} : ofPairs table context pairs = .ok o ↔
    Valid table pairs ∧ o.entries.entries = pairs := by
  constructor
  · intro h
    have hentries := entries_of_ofPairs h
    have hdistinct : (pairs.map Prod.fst).Nodup := hentries ▸ o.entries.distinct
    rw [ofPairs_of_nodup hdistinct] at h
    split at h
    · cases h
    · rename_i hknown
      obtain ⟨u, hvalues, -⟩ := map_eq_ok.mp h
      exact ⟨⟨hdistinct, unknownKey?_eq_none_iff.mp hknown, checkValues_eq_ok_iff.mp hvalues⟩,
        hentries⟩
  · rintro ⟨hvalid, hentries⟩
    have hknown : unknownKey? table ⟨pairs, hvalid.distinct⟩ = none :=
      unknownKey?_eq_none_iff.mpr hvalid.known
    have hvalues : checkValues ⟨pairs, hvalid.distinct⟩ table = .ok () :=
      checkValues_eq_ok_iff.mpr hvalid.accepted
    have ho : (⟨⟨pairs, hvalid.distinct⟩⟩ : JoinOptions) = o :=
      congrArg JoinOptions.mk (OrderedMap.ext_entries hentries.symm)
    rw [ofPairs_of_nodup hvalid.distinct, hknown, hvalues, ← ho]
    rfl

theorem refused_of_ofPairs (hgiven : Given options pairs)
    (h : ofPairs table context pairs = .error f) : Refused table context options f.code f := by
  by_cases hdistinct : (pairs.map Prod.fst).Nodup
  · rw [ofPairs_of_nodup hdistinct] at h
    split at h
    · rename_i key hkey
      cases h
      obtain ⟨front, value, back, hpairs, hfront, hunknown⟩ := unknownKey?_eq_some_iff.mp hkey
      exact .unknownKey hgiven hdistinct hpairs hfront hunknown
    · rename_i hknown
      have hvalues : checkValues ⟨pairs, hdistinct⟩ table = .error f := by
        cases hcheck : checkValues ⟨pairs, hdistinct⟩ table with
        | ok u =>
          rw [hcheck] at h
          cases h
        | error failure =>
          rw [hcheck] at h
          cases h
          rfl
      obtain ⟨front, spec, back, value, htable, hfront, hmem, hspec, rfl⟩ :=
        checkValues_eq_error_iff.mp hvalues
      exact .value hgiven hdistinct (unknownKey?_eq_none_iff.mp hknown) htable hfront hmem hspec
  · cases hcollect : collect .empty pairs with
    | ok entries => exact absurd (nodup_of_collect hcollect) hdistinct
    | error key =>
      rw [ofPairs, hcollect] at h
      cases h
      obtain ⟨front, value, back, rfl, hfront, hmem⟩ := collect_eq_error_iff.mp hcollect
      exact .repeatedKey hgiven hfront hmem

theorem Refused.ofExpr?_eq {code : String} (h : Refused table context options code f) :
    ofExpr? table context options = .error f := by
  cases h with
  | @notKeyword e h =>
    cases hpairs : e.asKeyword? with
    | none => simp only [ofExpr?, hpairs]
    | some pairs => exact absurd (given_some_iff.mpr hpairs) (h pairs)
  | @repeatedKey _ front back key value hgiven hdistinct hkey =>
    have hcollect : collect .empty (front ++ (key, value) :: back) = .error key :=
      collect_eq_error_iff.mpr ⟨front, value, back, rfl, hdistinct, hkey⟩
    rw [hgiven.ofExpr?_eq, ofPairs, hcollect]
  | @unknownKey _ pairs _ _ key _ hgiven hdistinct hpairs hknown hkey =>
    have hunknown : unknownKey? table ⟨pairs, hdistinct⟩ = some key :=
      unknownKey?_eq_some_iff.mpr ⟨_, _, _, hpairs, hknown, hkey⟩
    rw [hgiven.ofExpr?_eq, ofPairs_of_nodup hdistinct, hunknown]
  | @value _ pairs _ _ _ _ hgiven hdistinct hknown htable hfront hvalue hspec =>
    have hkeys : unknownKey? table ⟨pairs, hdistinct⟩ = none := unknownKey?_eq_none_iff.mpr hknown
    have hvalues : checkValues ⟨pairs, hdistinct⟩ table = .error _ :=
      checkValues_eq_error_iff.mpr ⟨_, _, _, _, htable, hfront, hvalue, hspec, rfl⟩
    rw [hgiven.ofExpr?_eq, ofPairs_of_nodup hdistinct, hkeys, hvalues]
    rfl

/-- Options are accepted if they are valid, and kept as they are given. -/
theorem ofExpr?_eq_ok_iff {o : JoinOptions} : ofExpr? table context options = .ok o ↔
    Given options o.entries.entries ∧ Valid table o.entries.entries := by
  constructor
  · intro h
    rcases given_or_not_keyword options with ⟨pairs, hgiven⟩ | ⟨e, rfl, hnot⟩
    · rw [hgiven.ofExpr?_eq, ofPairs_eq_ok_iff] at h
      obtain ⟨hvalid, rfl⟩ := h
      exact ⟨hgiven, hvalid⟩
    · cases h.symm.trans (Refused.notKeyword hnot).ofExpr?_eq
  · rintro ⟨hgiven, hvalid⟩
    rw [hgiven.ofExpr?_eq]
    exact ofPairs_eq_ok_iff.mpr ⟨hvalid, rfl⟩

/-- Options that are not accepted are refused for the first reason that applies. -/
theorem ofExpr?_eq_error_iff :
    ofExpr? table context options = .error f ↔ Refused table context options f.code f := by
  refine ⟨fun h => ?_, fun h => h.ofExpr?_eq⟩
  rcases given_or_not_keyword options with ⟨pairs, hgiven⟩ | ⟨e, rfl, hnot⟩
  · rw [hgiven.ofExpr?_eq] at h
    exact refused_of_ofPairs hgiven h
  · have hrefused : Refused table context _ "JOIN_005" _ := .notKeyword hnot
    cases h.symm.trans hrefused.ofExpr?_eq
    exact hrefused

/-- Options are accepted exactly if they are valid, and kept as they are given. All others are
refused for the first reason that applies. -/
theorem accepts_exactly_valid (table : List OptionSpec) (context : OptionContext)
    (options : Option Expr) :
    (∀ pairs, (∃ o, ofExpr? table context options = .ok o ∧ o.entries.entries = pairs) ↔
      Given options pairs ∧ Valid table pairs) ∧
    ∀ f, ofExpr? table context options = .error f ↔
      Refused table context options f.code f := by
  refine ⟨fun pairs => ⟨?_, ?_⟩, fun f => ofExpr?_eq_error_iff⟩
  · rintro ⟨o, ho, rfl⟩
    exact ofExpr?_eq_ok_iff.mp ho
  · rintro ⟨hgiven, hvalid⟩
    exact ⟨⟨⟨pairs, hvalid.distinct⟩⟩, ofExpr?_eq_ok_iff.mpr ⟨hgiven, hvalid⟩, rfl⟩

end JoinOptions

end StagedJoin
