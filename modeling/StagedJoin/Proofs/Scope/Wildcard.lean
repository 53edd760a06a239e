import StagedJoin.Proofs.Condition.Compilation
import StagedJoin.Proofs.Condition.Resolution
import StagedJoin.Proofs.Scope.BindingList
import StagedJoin.Proofs.Scope.Variables
import StagedJoin.Proofs.Source.Grammar

/-!
The wildcard among the variables. At a place of a binding list, and in front of a source,
it stands for a slot without a name. The pair `alias: _` of a keyword entry is not read in
this way: it names the slot of the alias as any variable does, so `_` is in scope behind it
and can be bound twice. What conditions and associations refer to is in scope, so that they
refer to `_` only where such a pair has named a slot.
-/
namespace StagedJoin

/-! ## References are in scope -/

namespace ConditionCompiler

variable {ctx : Context}

/-- A type is named by an atom or a string, which have no variables. -/
theorem vars_of_namedType {call named : Expr} {type : ColumnType}
    (h : namedType call named = .ok type) : named.vars = [] := by
  unfold namedType at h
  dsimp only at h
  split at h
  · rfl
  · rfl
  · cases h

mutual

/-- The variables of an expression that is compiled are in scope. -/
theorem isSome_slot?_of_compiles {x : String} {count : Nat} {hint : TypeTag} {e : Expr} {t : Term}
    {ps : List Param} (h : Compiles ctx count hint e t ps) (hx : x ∈ e.vars) :
    (ctx.scope.slot? x).isSome := by
  cases h with
  | literal | atom | interpolate => cases hx
  | field name hslot =>
    cases List.mem_singleton.mp hx
    rw [hslot]
    rfl
  | binary op hleft hright =>
    rcases List.mem_append.mp hx with hx | hx
    · exact isSome_slot?_of_compiles hleft hx
    · exact isSome_slot?_of_compiles hright hx
  | not he =>
    rw [Expr.vars] at hx
    exact isSome_slot?_of_compiles he hx
  | list hitems => exact isSome_slot?_of_compilesItems hitems hx
  | isNil he =>
    rcases List.mem_append.mp hx with hx | hx
    · exact isSome_slot?_of_compiles he hx
    · cases hx
  | typedParam p hnamed =>
    rw [Expr.vars, Expr.itemVars, Expr.itemVars, vars_of_namedType hnamed] at hx
    cases hx
  | typed hnamed hne he =>
    rw [Expr.vars, Expr.itemVars, Expr.itemVars, vars_of_namedType hnamed] at hx
    rcases List.mem_append.mp hx with hx | hx
    · exact isSome_slot?_of_compiles he hx
    · cases hx

theorem isSome_slot?_of_compilesItems {x : String} {count : Nat} {hint : TypeTag}
    {items : List Expr} {ts : List Term} {ps : List Param}
    (h : CompilesItems ctx count hint items ts ps) (hx : x ∈ Expr.itemVars items) :
    (ctx.scope.slot? x).isSome := by
  cases h with
  | nil => cases hx
  | cons he hrest =>
    rcases List.mem_append.mp hx with hx | hx
    · exact isSome_slot?_of_compiles he hx
    · exact isSome_slot?_of_compilesItems hrest hx

end

end ConditionCompiler

namespace Condition

variable {ctx : Context} {slot : Nat} {x : String}

theorem isSome_slot?_of_keywordConjunction {before c : Conjunction} {pairs : List (String × Expr)}
    (h : keywordConjunction .standard ctx slot before pairs = .ok c)
    (hx : x ∈ Expr.pairVars pairs) : (ctx.scope.slot? x).isSome := by
  induction pairs generalizing before with
  | nil => cases hx
  | cons pair rest ih =>
    obtain ⟨name, e⟩ := pair
    rw [keywordConjunction] at h
    split at h
    · cases h
    · rename_i hvalue
      rcases List.mem_append.mp hx with hx | hx
      · unfold keywordValue at hvalue
        split at hvalue
        · cases hx
        · cases hx
        · obtain ⟨-, -, hvalue⟩ := bind_eq_ok.mp hvalue
          exact ConditionCompiler.isSome_slot?_of_compiles
            (ConditionCompiler.standard_eq_ok_iff.mp hvalue) hx
      · exact ih h hx

/-- The variables of an `on` option that is accepted are in scope. -/
theorem isSome_slot?_of_ofExpr? {e : Expr} {on : OnClause}
    (h : OnClause.ofExpr? .standard ctx slot (some e) = .ok on) (hx : x ∈ e.vars) :
    (ctx.scope.slot? x).isSome := by
  unfold OnClause.ofExpr? at h
  split at h
  case h_1 he => cases he
  case h_2 he =>
    cases he
    cases hx
  case h_3 he =>
    cases he
    obtain ⟨condition, hcondition, -⟩ := bind_eq_ok.mp h
    obtain ⟨c, hc, -⟩ := bind_eq_ok.mp hcondition
    exact isSome_slot?_of_keywordConjunction hc hx
  case h_4 he =>
    cases he
    cases hx
  case h_5 => cases h
  case h_6 he =>
    cases he
    obtain ⟨condition, hcondition, -⟩ := bind_eq_ok.mp h
    obtain ⟨-, -, hcondition⟩ := bind_eq_ok.mp hcondition
    obtain ⟨r, hr, -⟩ := bind_eq_ok.mp hcondition
    exact ConditionCompiler.isSome_slot?_of_compiles
      (ConditionCompiler.standard_eq_ok_iff.mp hr) hx

end Condition

/-- The owner of an association is in scope. -/
theorem JoinSource.isSome_slot?_of_ofExpr {ctx : SourceContext} {name : String} {field : Expr}
    {sized : SizedSource} (h : ofExpr ctx (.call "assoc" [.var name, field]) = .ok sized) :
    (ctx.scope.slot? name).isSome := by
  change ofAssociation ctx _ (.var name) field = .ok sized at h
  obtain ⟨_, slot, _, _, hname, -, hslot, -⟩ := ofAssociation_eq_ok_iff.mp h
  cases hname
  rw [hslot]
  rfl

/-! ## Variables of a join -/

namespace JoinVars

variable {target source : Expr} {vars : JoinVars}

theorem nameOf_ne_wildcard {e : Expr} {name : String} (h : nameOf e = .ok (some name)) :
    name ≠ wildcard := by
  unfold nameOf nameUnlessWildcard at h
  split at h
  · split at h <;> cases h
    assumption
  · cases h

theorem wildcard_not_mem_of_namesOf {items : List Expr} {seen : List String}
    {names : List (Option String)} (h : namesOf seen items = .ok names) :
    some wildcard ∉ names := by
  induction items generalizing seen names with
  | nil =>
    cases h
    exact List.not_mem_nil
  | cons e rest ih =>
    obtain ⟨name, hname, h⟩ := bind_eq_ok.mp h
    cases name with
    | none =>
      obtain ⟨names, hnames, he⟩ := bind_eq_ok.mp h
      cases he
      simpa using ih hnames
    | some name =>
      dsimp only at h
      split at h
      · cases h
      · obtain ⟨names, hnames, he⟩ := bind_eq_ok.mp h
        cases he
        simpa using ⟨(nameOf_ne_wildcard hname).symm, ih hnames⟩

/-- No variable of a join is the wildcard. -/
theorem wildcard_not_mem_slots (h : splitTarget target = .ok (vars, source)) :
    some wildcard ∉ vars.slots := by
  unfold splitTarget at h
  split at h
  · split at h
    · rename_i hvars
      cases h
      unfold ofExpr at hvars
      split at hvars
      · cases hvars
      · obtain ⟨names, hnames, he⟩ := bind_eq_ok.mp hvars
        cases he
        exact wildcard_not_mem_of_namesOf hnames
      · obtain ⟨name, hname, he⟩ := bind_eq_ok.mp hvars
        cases he
        intro hmem
        cases List.mem_singleton.mp hmem
        exact nameOf_ne_wildcard hname rfl
    · cases h
  · cases h
    exact List.not_mem_nil

end JoinVars

/-- The variables of a join leave the wildcard as it is. -/
theorem Scope.slot?_wildcard_of_extend {s t : Scope} {target source : Expr} {vars : JoinVars}
    {arity : Nat} (hvars : JoinVars.splitTarget target = .ok (vars, source))
    (h : s.extend vars arity = .ok t) : t.slot? wildcard = s.slot? wildcard := by
  have hnone : vars.slots.idxOf? (some wildcard) = none :=
    List.idxOf?_eq_none_iff.mpr (JoinVars.wildcard_not_mem_slots hvars)
  rw [slot?_of_extend (JoinVars.nodup_names_of_splitTarget hvars) h, JoinVars.slot?, hnone,
    Option.map_none, Option.or_none]

/-! ## Names that are bound twice -/

namespace Scope

variable {s t : Scope} {aliases : OrderedMap Nat} {places : List (String × Nat)} {name : String}

/-- How often a scope binds a name. -/
def occurrences (s : Scope) (name : String) : Nat := (s.slot? name).isSome.toNat

/-- A name that is bound moves from the names that are left to those in scope. -/
theorem occurrences_of_bind {n : String} {slot : Nat} (h : s.bind n slot = .ok t)
    (rest : List String) :
    t.occurrences name + rest.count name = s.occurrences name + (n :: rest).count name := by
  have hfree := (bind_eq_ok_iff.mp h).1
  rw [occurrences, occurrences, slot?_of_bind h, List.count_cons]
  by_cases hname : name = n
  · subst hname
    simp [hfree, Nat.add_comm]
  · simp [hname, Ne.symm hname]

/-- A name that cannot be bound is in scope. -/
theorem two_le_of_bind {n : String} {slot : Nat} (h : s.bind n slot = .error (.boundTwice name))
    (rest : List String) : 2 ≤ s.occurrences name + (n :: rest).count name := by
  unfold bind at h
  split at h
  · rename_i htaken
    cases h
    have hsome : (s.slot? name).isSome = true := htaken
    have hone : s.occurrences name = 1 := by
      rw [occurrences, hsome]
      rfl
    rw [hone, List.count_cons_self]
    omega
  · cases h

theorem occurrences_of_bindAll (h : s.bindAll places = .ok t) :
    t.occurrences name = s.occurrences name + (places.map Prod.fst).count name := by
  induction places generalizing s with
  | nil =>
    cases h
    rfl
  | cons place rest ih =>
    obtain ⟨u, hu, ht⟩ := bindAll_cons_eq_ok_iff.mp h
    rw [ih ht, occurrences_of_bind hu, List.map_cons]

theorem two_le_of_bindAll (h : s.bindAll places = .error (.boundTwice name)) :
    2 ≤ s.occurrences name + (places.map Prod.fst).count name := by
  induction places generalizing s with
  | nil => cases h
  | cons place rest ih =>
    rcases bind_eq_error.mp (bindAll_cons.symm.trans h) with hu | ⟨u, hu, hrest⟩
    · exact two_le_of_bind hu _
    · rw [List.map_cons, ← occurrences_of_bind hu]
      exact ih hrest

theorem two_le_of_bindFrom {first : Nat} {names : List (Option String)}
    (h : s.bindFrom first names = .error (.boundTwice name)) :
    2 ≤ s.occurrences name + (names.filterMap id).count name := by
  rw [bindFrom_eq_bindAll] at h
  rw [← names_placed first]
  exact two_le_of_bindAll h

theorem occurrences_of_bindFrom {first : Nat} {names : List (Option String)}
    (h : s.bindFrom first names = .ok t) :
    t.occurrences name = s.occurrences name + (names.filterMap id).count name := by
  rw [bindFrom_eq_bindAll] at h
  rw [← names_placed first]
  exact occurrences_of_bindAll h

theorem two_le_of_bindNamed {named : List (String × String)}
    (h : s.bindNamed aliases named = .error (.boundTwice name)) :
    2 ≤ s.occurrences name + (named.map Prod.snd).count name := by
  induction named generalizing s with
  | nil => cases h
  | cons entry rest ih =>
    obtain ⟨aliasName, n⟩ := entry
    rw [bindNamed] at h
    split at h
    · cases h
    · split at h
      · rename_i hu
        cases h
        exact two_le_of_bind hu _
      · rename_i hu
        rw [List.map_cons, ← occurrences_of_bind hu]
        exact ih h

end Scope

namespace BindingList

variable {slots : Nat} {aliases : OrderedMap Nat} {items : List Expr} {name : String}

/-- The names that the entries of a list bind. A wildcard at a place binds none, but the variable
of an alias is bound whatever it is. -/
def boundNames (items : List Expr) : List String :=
  (leadingVars items ++ trailingVars items).filter (· ≠ wildcard) ++
    (namedVars items).map Prod.snd

/-- The entries of a list are of the right kinds and fit the slots and the aliases in view. -/
structure Fits (slots : Nat) (aliases : OrderedMap Nat) (items : List Expr) : Prop where
  entries : ∀ e ∈ items, e.IsBinding
  once : items.countP Expr.isEllipsis ≤ 1
  places : (leadingVars items).length + (trailingVars items).length ≤ slots
  inView : ∀ entry ∈ namedVars items, ∃ slot < slots, aliases.get? entry.1 = some slot

theorem two_le_of_resolve {l : BindingList}
    (h : l.resolve slots aliases = .error (.boundTwice name)) :
    2 ≤ (l.leading.filterMap id ++ l.trailing.filterMap id ++ l.named.map Prod.snd).count name := by
  have hempty : Scope.occurrences ⟨.empty, slots⟩ name = 0 := rfl
  rw [List.count_append, List.count_append]
  unfold resolve at h
  split at h
  · cases h
  · rcases bind_eq_error.mp h with hleading | ⟨u, hu, h⟩
    · have htwo := Scope.two_le_of_bindFrom hleading
      omega
    · have hleading : u.occurrences name = (l.leading.filterMap id).count name := by
        rw [Scope.occurrences_of_bindFrom hu, hempty, Nat.zero_add]
      rcases bind_eq_error.mp h with htrailing | ⟨v, hv, hnamed⟩
      · have htwo := Scope.two_le_of_bindFrom htrailing
        omega
      · have htrailing : v.occurrences name =
            u.occurrences name + (l.trailing.filterMap id).count name :=
          Scope.occurrences_of_bindFrom hv
        have htwo := Scope.two_le_of_bindNamed hnamed
        omega

theorem namedEntries_ne_boundTwice {pairs : List (String × Expr)} :
    namedEntries pairs ≠ .error (.boundTwice name) := by
  induction pairs with
  | nil => exact fun h => nomatch h
  | cons pair rest ih =>
    intro h
    unfold namedEntries at h
    split at h
    · cases h
    · rename_i hpairs
      cases hpairs
      rcases bind_eq_error.mp h with hrest | ⟨_, -, h⟩
      · exact ih hrest
      · cases h
    · cases h

/-- Reading the entries binds no name yet. -/
theorem ofItems_ne_boundTwice {behind : Bool} :
    ofItems behind items ≠ .error (.boundTwice name) := by
  induction items generalizing behind with
  | nil => exact fun h => nomatch h
  | cons e rest ih =>
    intro h
    cases e with
    | var n =>
      rcases bind_eq_error.mp h with hrest | ⟨_, -, h⟩
      · exact ih hrest
      · cases h
    | ellipsis =>
      cases behind with
      | true => cases h
      | false => exact ih h
    | keyword pairs =>
      rcases bind_eq_error.mp h with hpairs | ⟨_, -, h⟩
      · exact namedEntries_ne_boundTwice hpairs
      · rcases bind_eq_error.mp h with hrest | ⟨_, -, h⟩
        · exact ih hrest
        · cases h
    | _ => cases h

end BindingList

namespace Scope

variable {slots : Nat} {aliases : OrderedMap Nat} {bindings : Expr} {name site : String}

/-- Only a name that the entries bind twice is reported as bound twice. -/
theorem two_le_of_resolve
    (h : resolve slots aliases bindings = .error (.binding (.boundTwice name) site)) :
    ∃ items, bindings = .list items ∧ 2 ≤ (BindingList.boundNames items).count name := by
  obtain ⟨fault, hlist, hfault⟩ := mapError_eq_error.mp h
  cases hfault
  split at hlist
  · rename_i items
    rcases bind_eq_error.mp hlist with hitems | ⟨l, hl, hresolve⟩
    · exact absurd hitems BindingList.ofItems_ne_boundTwice
    · obtain ⟨-, -, rfl⟩ := BindingList.ofItems_eq_ok_iff.mp hl
      have htwo := BindingList.two_le_of_resolve hresolve
      simp only [BindingList.reading, BindingList.filterMap_nameUnlessWildcard,
        ← List.filter_append, Bool.false_eq_true, ↓reduceIte] at htwo
      exact ⟨items, rfl, htwo⟩
  · cases hlist

open BindingList in
/-- Entries that fit the slots and the aliases resolve if they bind no name twice. -/
theorem exists_resolve_iff : (∃ s, resolve slots aliases bindings = .ok s) ↔
    ∃ items, bindings = .list items ∧ Fits slots aliases items ∧ (boundNames items).Nodup := by
  constructor
  · rintro ⟨s, hs⟩
    obtain ⟨items, rfl⟩ := exists_list_of_resolve hs
    obtain ⟨⟨hentries, honce⟩, hfits, hview, hall⟩ := resolve_list_eq_ok_iff_bindAll.mp hs
    have hdistinct := (exists_bindAll_iff.mp ⟨s, hall⟩).1
    rw [names_places_reading hview] at hdistinct
    exact ⟨items, rfl, ⟨hentries, honce, hfits, hview⟩, hdistinct⟩
  · rintro ⟨items, rfl, ⟨hentries, honce, hfits, hview⟩, hdistinct⟩
    have hfree : ∀ name, slot? ⟨.empty, slots⟩ name = none := fun _ => rfl
    rw [boundNames, ← names_places_reading hview] at hdistinct
    obtain ⟨s, hall⟩ := exists_bindAll_iff.mpr ⟨hdistinct, fun name _ => hfree name⟩
    exact ⟨s, resolve_list_eq_ok_iff_bindAll.mpr ⟨⟨hentries, honce⟩, hfits, hview, hall⟩⟩

open BindingList in
/-- The wildcard is a variable only where an entry `alias: _` makes it one. It then names the slot
of that alias, and the variables of the join do not change this; without such an entry, neither an
`on` option nor the owner of an association refers to it. Wildcards at a place never stand in the
way of a list: it is refused over a name only if other entries bind that name twice. -/
theorem wildcard_named_by_alias_only (slots : Nat) (aliases : OrderedMap Nat) (bindings : Expr) :
    (∀ s, resolve slots aliases bindings = .ok s → ∃ items, bindings = .list items ∧
      (∀ slot, s.slot? wildcard = some slot ↔ ∃ aliasName,
        (aliasName, wildcard) ∈ namedVars items ∧ aliases.get? aliasName = some slot) ∧
      ∀ target vars source arity t, JoinVars.splitTarget target = .ok (vars, source) →
        s.extend vars arity = .ok t → t.slot? wildcard = s.slot? wildcard ∧
          (wildcard ∉ (namedVars items).map Prod.snd → ∀ schemas view,
            (∀ slot e on, OnClause.ofExpr? .standard ⟨t, schemas, view⟩ slot (some e) = .ok on →
              wildcard ∉ e.vars) ∧
            ∀ field sized, JoinSource.ofExpr ⟨s, vars, schemas, view⟩
              (.call "assoc" [.var wildcard, field]) ≠ .ok sized)) ∧
    ((∃ s, resolve slots aliases bindings = .ok s) ↔
      ∃ items, bindings = .list items ∧ Fits slots aliases items ∧ (boundNames items).Nodup) ∧
    ∀ name site, resolve slots aliases bindings = .error (.binding (.boundTwice name) site) →
      ∃ items, bindings = .list items ∧ 2 ≤ (boundNames items).count name := by
  refine ⟨fun s hs => ?_, exists_resolve_iff, fun name site h => two_le_of_resolve h⟩
  obtain ⟨items, rfl⟩ := exists_list_of_resolve hs
  have hslot : ∀ slot, s.slot? wildcard = some slot ↔ ∃ aliasName,
      (aliasName, wildcard) ∈ namedVars items ∧ aliases.get? aliasName = some slot := by
    intro slot
    rw [slot?_of_resolve_list hs]
    constructor
    · intro h
      cases h with
      | leading _ hname => exact absurd rfl hname
      | trailing _ hname => exact absurd rfl hname
      | named hvar hslot => exact ⟨_, hvar, hslot⟩
    · rintro ⟨aliasName, hvar, hslot⟩
      exact .named hvar hslot
  refine ⟨items, rfl, hslot, fun target vars source arity t hvars ht => ?_⟩
  have hextend := slot?_wildcard_of_extend hvars ht
  refine ⟨hextend, fun hnamed schemas view => ?_⟩
  have hnone : s.slot? wildcard = none := by
    refine Option.eq_none_iff_forall_ne_some.mpr fun slot h => ?_
    obtain ⟨aliasName, hvar, -⟩ := (hslot slot).mp h
    exact hnamed (List.mem_map.mpr ⟨_, hvar, rfl⟩)
  constructor
  · intro slot e on hon hmem
    have hsome := Condition.isSome_slot?_of_ofExpr? hon hmem
    rw [hextend, hnone] at hsome
    cases hsome
  · intro field sized hsized
    have hsome := JoinSource.isSome_slot?_of_ofExpr hsized
    rw [hnone] at hsome
    cases hsome

end Scope

namespace Sample

/-- `[author: _]` puts `_` in scope, as the slot of the author; for the same reason
`[post: _, author: _]` is refused. -/
theorem wildcard_bound_by_alias :
    (∃ s, Scope.resolve 2 (.ofList [("post", 0), ("author", 1)])
      (.list [.keyword [("author", .var "_")]]) = .ok s ∧ s.slot? wildcard = some 1) ∧
    Scope.resolve 2 (.ofList [("post", 0), ("author", 1)])
      (.list [.keyword [("post", .var "_"), ("author", .var "_")]]) =
        .error (.binding (.boundTwice "_") "_") :=
  ⟨⟨_, rfl, rfl⟩, rfl⟩

end Sample

end StagedJoin
