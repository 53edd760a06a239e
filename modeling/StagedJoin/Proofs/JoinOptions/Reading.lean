import StagedJoin.Config.Json
import StagedJoin.Proofs.JoinOptions.Validation
import StagedJoin.Proofs.Query.Reachable

/-!
What is read from valid options. The core options head every table, so their values are
those that a core specification accepts, whatever further specifications a table has; each
of them is read as the part that it gives. Every other option becomes an extension if it
has a value, so that all of them do unless the settings ask for conditions.
-/
namespace StagedJoin

/-! ## Parts and the expressions that give them -/

namespace Expr

variable {α : Type} {e : Expr}

/-- An expression gives a part: it is a literal of the part, or a placeholder for it. -/
inductive Gives (literal : Expr → α → Prop) : Expr → Staged α → Prop
  | literal {e : Expr} {a : α} (h : literal e a) : Gives literal e (.literal a)
  | deferred (p : Placeholder) : Gives literal (.interpolate p) (.deferred p)

def IsAtom (e : Expr) (name : String) : Prop := e = .atom name

def IsString (e : Expr) (s : String) : Prop := e = .string s

/-- Strings are given in a list, or one of them alone. -/
inductive IsStrings : Expr → List String → Prop
  | one (s : String) : IsStrings (.string s) [s]
  | list (ss : List String) : IsStrings (.list (ss.map .string)) ss

inductive IsScalar : Expr → Value → Prop
  | literal (l : Literal) : IsScalar (.literal l) l.value
  | atom (name : String) : IsScalar (.atom name) (.atom name)

/-- The value that an expression denotes. -/
inductive IsValue : Expr → Value → Prop
  | scalar {e : Expr} {v : Value} (h : e.IsScalar v) : IsValue e v
  | list (ls : List Literal) : IsValue (.list (ls.map .literal)) (.list (ls.map Literal.value))

theorem stagedAtom?_eq_some_iff {s : Staged String} :
    e.stagedAtom? = some s ↔ Gives IsAtom e s := by
  constructor
  · intro h
    unfold stagedAtom? at h
    split at h <;> cases h
    · exact .literal rfl
    · exact .deferred _
  · intro h
    cases h with
    | literal h =>
      cases h
      rfl
    | deferred p => rfl

theorem stagedString?_eq_some_iff {s : Staged String} :
    e.stagedString? = some s ↔ Gives IsString e s := by
  constructor
  · intro h
    unfold stagedString? at h
    split at h <;> cases h
    · exact .literal rfl
    · exact .deferred _
  · intro h
    cases h with
    | literal h =>
      cases h
      rfl
    | deferred p => rfl

theorem stagedStrings?_of_gives {s : Staged (List String)} (h : Gives IsStrings e s) :
    e.stagedStrings? = some s := by
  cases h with
  | deferred p => rfl
  | literal h =>
    cases h with
    | one s => rfl
    | list =>
      rw [stagedStrings?, List.filterMap_map]
      exact congrArg (fun ss => some (Staged.literal ss)) List.filterMap_some

theorem asLiteral?_eq_some_iff {l : Literal} : e.asLiteral? = some l ↔ e = .literal l := by
  cases e <;> simp [asLiteral?]

theorem mapM_asLiteral?_eq_some_iff {items : List Expr} {ls : List Literal} :
    items.mapM asLiteral? = some ls ↔ items = ls.map .literal := by
  simp only [mapM_eq_some_iff, asLiteral?_eq_some_iff]
  rw [← List.forall₂_map_right_iff (R := Eq), List.forall₂_eq_eq_eq]

theorem stagedValue?_eq_some_iff {s : Staged Value} :
    e.stagedValue? = some s ↔ Gives IsValue e s := by
  constructor
  · intro h
    unfold stagedValue? at h
    split at h
    · cases h
      exact .literal (.scalar (.literal _))
    · cases h
      exact .literal (.scalar (.atom _))
    · cases h
      exact .deferred _
    · obtain ⟨ls, hls, rfl⟩ := Option.map_eq_some_iff.mp h
      rw [mapM_asLiteral?_eq_some_iff] at hls
      subst hls
      exact .literal (.list ls)
    · cases h
  · intro h
    cases h with
    | deferred p => rfl
    | literal h =>
      cases h with
      | scalar h => cases h <;> rfl
      | list ls => rw [stagedValue?, mapM_asLiteral?_eq_some_iff.mpr rfl, Option.map_some]

end Expr

/-! ## Values that are accepted -/

namespace OptionSpec

variable {spec : OptionSpec} {e : Expr}

open StagedJoin.Expr

/-- An option that is no condition takes a placeholder or a literal. -/
theorem Accepts.cases_literal (h : spec.Accepts e) (hspec : spec.isCondition = false) :
    (∃ p, e = .interpolate p) ∨ ∃ kind ∈ spec.accepts, e.OfKind kind := by
  cases h with
  | condition h => rw [hspec] at h; cases h
  | interpolated _ p => exact .inl ⟨p, rfl⟩
  | literal h hkind => exact .inr ⟨_, h, hkind⟩

theorem Accepts.exists_value (h : spec.Accepts e) (hspec : spec.isCondition = false) :
    ∃ s, Gives IsValue e s := by
  rcases h.cases_literal hspec with ⟨p, rfl⟩ | ⟨kind, -, hkind⟩
  · exact ⟨_, .deferred p⟩
  · cases hkind with
    | atom name => exact ⟨_, .literal (.scalar (.atom name))⟩
    | stringList ss =>
      have hlist := IsValue.list (ss.map Literal.string)
      rw [List.map_map] at hlist
      exact ⟨_, .literal hlist⟩
    | _ => exact ⟨_, .literal (.scalar (.literal _))⟩

end OptionSpec

/-! ## What is read -/

namespace JoinOptions

variable {α : Type} {pairs : List (String × Expr)} {o : JoinOptions} {c : Config}

open StagedJoin.Expr

/-- The core options are not replaced by others of their names. -/
theorem Accepted.core (h : Accepted c.optionTable pairs) : Accepted coreTable pairs :=
  fun spec hspec => h spec (List.mem_append_left _ hspec)

theorem Accepted.exists_atom {e : Expr} (h : Accepted coreTable pairs) (he : ("as", e) ∈ pairs) :
    ∃ s, Gives IsAtom e s := by
  have haccepts := h ⟨"as", [.atom], true, false⟩ (by decide) e he
  rcases haccepts.cases_literal rfl with ⟨p, rfl⟩ | ⟨kind, hkind, hliteral⟩
  · exact ⟨_, .deferred p⟩
  · cases List.mem_singleton.mp hkind
    cases hliteral
    exact ⟨_, .literal rfl⟩

theorem Accepted.exists_string {table : List OptionSpec} {e : Expr} (h : Accepted table pairs)
    (htable : ⟨"prefix", [.string], true, false⟩ ∈ table) (he : ("prefix", e) ∈ pairs) :
    ∃ s, Gives IsString e s := by
  rcases (h _ htable e he).cases_literal rfl with ⟨p, rfl⟩ | ⟨kind, hkind, hliteral⟩
  · exact ⟨_, .deferred p⟩
  · cases List.mem_singleton.mp hkind
    cases hliteral
    exact ⟨_, .literal rfl⟩

theorem Accepted.exists_strings {e : Expr} (h : Accepted coreTable pairs)
    (he : ("hints", e) ∈ pairs) : ∃ s, Gives IsStrings e s := by
  have haccepts := h ⟨"hints", [.string, .stringList], true, false⟩ (by decide) e he
  rcases haccepts.cases_literal rfl with ⟨p, rfl⟩ | ⟨kind, hkind, hliteral⟩
  · exact ⟨_, .deferred p⟩
  · simp only [List.mem_cons, List.not_mem_nil, or_false] at hkind
    rcases hkind with rfl | rfl
    · cases hliteral
      exact ⟨_, .literal (.one _)⟩
    · cases hliteral
      exact ⟨_, .literal (.list _)⟩

/-- A part is read if and only if its option is given. -/
theorem rel_of_gives {literal : Expr → α → Prop} {read : Expr → Option (Staged α)} {key : String}
    (hgives : ∀ e, (key, e) ∈ pairs → ∃ s, Gives literal e s)
    (hread : ∀ e s, Gives literal e s → read e = some s) :
    Option.Rel (Gives literal) (pairs.lookup key) ((pairs.lookup key).bind read) := by
  cases hlookup : pairs.lookup key with
  | none => exact .none
  | some e =>
    obtain ⟨s, hs⟩ := hgives e (OrderedMap.mem_of_lookup_eq_some hlookup)
    rw [Option.bind_some, hread e s hs]
    exact .some hs

/-- The given options that are not among the core ones. -/
def further (pairs : List (String × Expr)) : List (String × Expr) :=
  pairs.filter fun pair => !coreNames.contains pair.1

/-- The further options that have a value. -/
def valued (pairs : List (String × Expr)) : List (String × Expr) :=
  (further pairs).filter fun pair => pair.2.stagedValue?.isSome

theorem mem_valued_iff {pair : String × Expr} :
    pair ∈ valued pairs ↔ pair ∈ further pairs ∧ ∃ s, Gives IsValue pair.2 s := by
  simp only [valued, List.mem_filter, Option.isSome_iff_exists, stagedValue?_eq_some_iff]

/-- Extensions are the further options that have a value, in order. -/
theorem related_extensions (pairs : List (String × Expr)) :
    PairsRelated (fun _ => Gives IsValue) (valued pairs)
      (OrderedMap.filterMapList
        (fun key value => if coreNames.contains key then none else value.stagedValue?) pairs) := by
  induction pairs with
  | nil => exact .nil
  | cons pair rest ih =>
    obtain ⟨key, e⟩ := pair
    rw [valued, further, OrderedMap.filterMapList]
    by_cases hcore : coreNames.contains key = true
    · rw [List.filter_cons_of_neg (by simpa using hcore), if_pos hcore]
      exact ih
    · rw [List.filter_cons_of_pos (by simpa using hcore), if_neg hcore]
      cases hvalue : e.stagedValue? with
      | none =>
        rw [List.filter_cons_of_neg (by simp [hvalue])]
        exact ih
      | some s =>
        rw [List.filter_cons_of_pos (by simp [hvalue])]
        exact .cons ⟨rfl, stagedValue?_eq_some_iff.mp hvalue⟩ ih

end JoinOptions

/-! ## Options of a join -/

/-- The name that is given for a join. -/
def JoinAlias.explicit? : JoinAlias → Option (Staged String)
  | .explicit name => some name
  | _ => Option.none

theorem Query.explicit?_inferAlias (q : Query) (source : JoinSource) :
    (q.inferAlias source).explicit? = none := by
  unfold inferAlias
  split
  · split <;> rfl
  · rfl

theorem OptionSpec.isCondition_of_ofJson? {depth : Nat} {j : Json} {spec : OptionSpec}
    (h : OptionSpec.ofJson? depth j = some spec) : spec.isCondition = false := by
  simp only [OptionSpec.ofJson?, Option.bind_eq_bind, Option.bind_eq_some_iff] at h
  obtain ⟨_, -, _, -, _, -, _, -, hspec⟩ := h
  cases hspec
  rfl

/-- Settings that are read from a document specify no conditions. -/
theorem Config.isCondition_of_ofJson? {depth : Nat} {j : Json} {c : Config}
    (h : Config.ofJson? depth j = some c) : ∀ spec ∈ c.options, spec.isCondition = false := by
  simp only [Config.ofJson?, Option.bind_eq_bind, Option.bind_eq_some_iff] at h
  obtain ⟨f, -, specs, hspecs, _, -, hc⟩ := h
  cases hc
  intro spec hspec
  unfold Json.Fields.defaulted? at hspecs
  split at hspecs
  · unfold Json.asList? at hspecs
    split at hspecs
    · obtain ⟨item, -, hitem⟩ := exists_left_of_forall₂ (mapM_eq_some_iff.mp hspecs) hspec
      exact OptionSpec.isCondition_of_ofJson? hitem
    · cases hspecs
  · cases hspecs
    cases hspec

theorem Config.isCondition_of_ofText {text : String} {c : Config} (h : ofText text = .ok c) :
    ∀ spec ∈ c.options, spec.isCondition = false := by
  unfold ofText at h
  split at h
  · cases h
  · unfold ofDocument at h
    split at h
    · cases h
    · rename_i hread
      split at h <;> cases h
      exact Config.isCondition_of_ofJson? hread

/-- An option of the settings that only ever takes a condition. -/
structure Config.TakesCondition (c : Config) (key : String) : Prop where
  exists_spec : ∃ spec ∈ c.options, spec.name = key
  isCondition : ∀ spec ∈ c.options, spec.name = key → spec.isCondition = true

namespace JoinOptions

open StagedJoin.Expr

theorem Valid.exists_spec {c : Config} {pairs : List (String × Expr)} {pair : String × Expr}
    (h : Valid c.optionTable pairs) (hpair : pair ∈ further pairs) :
    ∃ spec ∈ c.options, spec.name = pair.1 := by
  obtain ⟨hmem, hcore⟩ := List.mem_filter.mp hpair
  obtain ⟨spec, hspec, hname⟩ := h.known pair hmem
  rcases List.mem_append.mp hspec with hin | hin
  · have hnames : ∀ s ∈ coreTable, coreNames.contains s.name = true := by decide
    rw [← hname, hnames spec hin] at hcore
    cases hcore
  · exact ⟨spec, hin, hname⟩

/-- What has no value has been accepted as a condition. -/
theorem Valid.takesCondition {c : Config} {pairs : List (String × Expr)} {pair : String × Expr}
    (h : Valid c.optionTable pairs) (hpair : pair ∈ further pairs)
    (hvalue : pair.2.stagedValue? = none) : c.TakesCondition pair.1 := by
  refine ⟨h.exists_spec hpair, fun spec hspec hname => ?_⟩
  have hmem := (List.mem_filter.mp hpair).1
  have haccepts := h.accepted spec (List.mem_append_right _ hspec) pair.2 (hname ▸ hmem)
  by_contra hne
  obtain ⟨s, hs⟩ := haccepts.exists_value (by simpa using hne)
  rw [stagedValue?_eq_some_iff.mpr hs] at hvalue
  cases hvalue

/-- Where the settings ask for no condition, every further option has a value. -/
theorem Valid.valued_eq {c : Config} {pairs : List (String × Expr)} (h : Valid c.optionTable pairs)
    (hplain : ∀ spec ∈ c.options, spec.isCondition = false) : valued pairs = further pairs := by
  refine List.filter_eq_self.mpr fun pair hpair => ?_
  by_contra hnone
  have htakes := h.takesCondition hpair (by simpa using hnone)
  obtain ⟨spec, hspec, hname⟩ := htakes.exists_spec
  have hcondition := htakes.isCondition spec hspec hname
  rw [hplain spec hspec] at hcondition
  cases hcondition

end JoinOptions

open StagedJoin.Expr JoinOptions

namespace Compiler

variable {c : Compiler} {q r : Query} {i : Invocation}

/-- A join that is built has valid options, and those of them that have a value as extensions. -/
theorem exists_parts_of_join (h : c.join q i = .ok r) : ∃ p : c.Parts q i,
    r.joins = q.joins ++ [p.join] ∧ Given i.options p.options.entries.entries ∧
      Valid c.config.optionTable p.options.entries.entries ∧
      PairsRelated (fun _ => Gives IsValue) (valued p.options.entries.entries)
        p.join.extensions.entries := by
  obtain ⟨p, hp⟩ := join_eq_ok_iff.mp h
  obtain ⟨-, aliases, -, rfl⟩ := Query.append_eq_ok_iff.mp hp
  obtain ⟨hgiven, hvalid⟩ := ofExpr?_eq_ok_iff.mp p.options_eq
  exact ⟨p, rfl, hgiven, hvalid, related_extensions _⟩

/-- A join keeps the options that it is given, whatever the settings are. Its name, its prefix and
its hints are the given ones, and its extensions are the further options that have a value, in their
order; only what is given to an option that takes nothing but conditions may have none. -/
theorem options_kept_of_join (h : c.join q i = .ok r) :
    ∃ j pairs, r.joins = q.joins ++ [j] ∧ Given i.options pairs ∧ (pairs.map Prod.fst).Nodup ∧
      Option.Rel (Gives IsAtom) (pairs.lookup "as") j.joinAlias.explicit? ∧
      Option.Rel (Gives IsString) (pairs.lookup "prefix") j.tablePrefix ∧
      Option.Rel (Gives IsStrings) (pairs.lookup "hints") j.hints ∧
      ∃ kept, kept.Sublist (further pairs) ∧
        PairsRelated (fun _ => Gives IsValue) kept j.extensions.entries ∧
        (∀ pair ∈ further pairs, pair ∈ kept ↔ ∃ s, Gives IsValue pair.2 s) ∧
        (∀ pair ∈ further pairs, pair ∉ kept → c.config.TakesCondition pair.1) ∧
        ((∀ spec ∈ c.config.options, spec.isCondition = false) → kept = further pairs) := by
  obtain ⟨p, hjoins, hgiven, hvalid, hextensions⟩ := exists_parts_of_join h
  have hcore := hvalid.accepted.core
  have hexplicit : p.join.joinAlias.explicit? = p.options.alias? := by
    change p.joinAlias.explicit? = _
    unfold Parts.joinAlias
    split
    · rename_i name hname
      rw [hname]
      rfl
    · rename_i hnone
      rw [hnone, q.explicit?_inferAlias]
  refine ⟨p.join, _, hjoins, hgiven, hvalid.distinct, ?_, ?_, ?_, _, List.filter_sublist,
    hextensions, ?_, ?_, hvalid.valued_eq⟩
  · rw [hexplicit]
    exact rel_of_gives (fun e => hcore.exists_atom) fun e s => stagedAtom?_eq_some_iff.mpr
  · exact rel_of_gives (fun e => hcore.exists_string (by decide))
      fun e s => stagedString?_eq_some_iff.mpr
  · exact rel_of_gives (fun e => hcore.exists_strings) fun e s => stagedStrings?_of_gives
  · exact fun pair hpair => mem_valued_iff.trans (and_iff_right hpair)
  · intro pair hpair hnot
    refine hvalid.takesCondition hpair ?_
    by_contra hsome
    exact hnot (List.mem_filter.mpr ⟨hpair, by simpa [Option.isSome_iff_ne_none] using hsome⟩)

/-- With settings that are loaded, the extensions are all of the further options. -/
theorem extensions_of_loaded {text : String} (hloaded : Config.ofText text = .ok c.config)
    (h : c.join q i = .ok r) : ∃ j pairs, r.joins = q.joins ++ [j] ∧ Given i.options pairs ∧
      PairsRelated (fun _ => Gives IsValue) (further pairs) j.extensions.entries := by
  obtain ⟨p, hjoins, hgiven, hvalid, hextensions⟩ := exists_parts_of_join h
  rw [hvalid.valued_eq (Config.isCondition_of_ofText hloaded)] at hextensions
  exact ⟨p.join, _, hjoins, hgiven, hextensions⟩

end Compiler

namespace Sample

open StagedJoin.Expr JoinOptions

/-- Settings that have not been checked: they specify `as` and `lock` again. -/
def shadowing : Compiler :=
  { compiler with config := { options := [
      { name := "as", accepts := [.atom, .string] },
      { name := "lock", accepts := [.string] },
      { name := "lock", accepts := [.string, .atom], interpolated := true }] } }

def lockedOptions : List (String × Expr) := [
  ("hints", .list [Expr.string "fast"]), ("lock", Expr.string "update"), ("as", .atom "c")]

/-- `join(query, :inner, [p], "comments", hints: ["fast"], lock: "update", as: :c)`. -/
def locked : Invocation where
  qualifier := .atom "inner"
  binding := .list [.var "p"]
  target := Expr.string "comments"
  options := some (.keyword lockedOptions)

theorem options_kept_of_locked : ∃ r, shadowing.join posts locked = .ok r ∧
    ∃ j, r.joins = posts.joins ++ [j] ∧
      Option.Rel (Gives IsAtom) (some (.atom "c")) j.joinAlias.explicit? ∧
      Option.Rel (Gives IsString) none j.tablePrefix ∧
      PairsRelated (fun _ => Gives IsValue) [("lock", Expr.string "update")]
        j.extensions.entries := by
  refine ⟨_, rfl, ?_⟩
  obtain ⟨j, pairs, hjoins, hgiven, -, hname, hprefix, -, kept, -, hkept, -, -, hall⟩ :=
    Compiler.options_kept_of_join (c := shadowing) (q := posts) (i := locked) rfl
  cases hgiven
  rw [hall (by decide)] at hkept
  exact ⟨j, hjoins, hname, hprefix, hkept⟩

/-- Settings with a condition of their own, which are valid. -/
def filtering : Compiler :=
  { compiler with config := { options := [{ name := "filter", isCondition := true }] } }

/-- `join(query, :inner, [p], "comments", filter: e)`. -/
def filtered (e : Expr) : Invocation where
  qualifier := .atom "inner"
  binding := .list [.var "p"]
  target := Expr.string "comments"
  options := some (.keyword [("filter", e)])

/-- `p.a == 1` -/
def aIsOne : Expr := .binary .eq (.field "p" "a") (.literal (.integer 1))

/-- Both `filter: p.a == 1` and `filter: [:a]` are taken, and neither is among the extensions. -/
theorem filter_lost :
    filtering.config.validate = .ok () ∧ posts.Reachable ∧
      further [("filter", aIsOne)] = [("filter", aIsOne)] ∧
      (∃ r j, filtering.join posts (filtered aIsOne) = .ok r ∧ r.joins = posts.joins ++ [j] ∧
        j.extensions = .empty) ∧
      further [("filter", .list [.atom "a"])] = [("filter", .list [.atom "a"])] ∧
      ∃ r j, filtering.join posts (filtered (.list [.atom "a"])) = .ok r ∧
        r.joins = posts.joins ++ [j] ∧ j.extensions = .empty :=
  ⟨rfl, .ofTableRef _, rfl, ⟨_, _, rfl, rfl, rfl⟩, rfl, _, _, rfl, rfl, rfl⟩

end Sample

end StagedJoin
