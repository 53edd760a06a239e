import StagedJoin.Proofs.Bound.Widening

/-!
A name that is given early or late. With the alias of a later slot registered before its
turn, joins are bound to what they are bound to without it and leave the same names but
for that one. Only a join that is supplied with that very name fails.
-/
namespace StagedJoin

/-- The same slots under the same names and, if there is one, a name for `slot`, which `early` has
and which is free in `late`. -/
structure BoundSlots.NamedEarly (name? : Option String) (slot : Nat) (late early : BoundSlots) :
    Prop where
  schemas_eq : late.schemas = early.schemas
  get?_eq : ∀ key, early.aliases.get? key =
    if name? = some key then some slot else late.aliases.get? key
  free : ∀ name ∈ name?, late.aliases.get? name = none

namespace BoundSlots.NamedEarly

variable {name? : Option String} {slot : Nat} {late early : BoundSlots}

theorem refl (slot : Nat) (slots : BoundSlots) : NamedEarly none slot slots slots :=
  ⟨rfl, fun _ => rfl, fun _ h => nomatch h⟩

theorem of_insert {aliases : OrderedMap Nat} {name : String} (h : aliases.get? name = none)
    (slot : Nat) (schemas : List (Option String)) :
    NamedEarly (some name) slot ⟨aliases, schemas⟩ ⟨aliases.insert name slot, schemas⟩ := by
  refine ⟨rfl, fun key => ?_, ?_⟩
  · rw [OrderedMap.get?_insert]
    simp only [Option.some.injEq, eq_comm]
  · rintro _ ⟨⟩
    exact h

theorem get?_of_ne (h : NamedEarly name? slot late early) {key : String} (hkey : name? ≠ some key) :
    early.aliases.get? key = late.aliases.get? key := by
  rw [h.get?_eq, if_neg hkey]

/-- Without a name that is given early, the names are the same. -/
theorem get?_eq_of_none (h : NamedEarly none slot late early) (key : String) :
    late.aliases.get? key = early.aliases.get? key := by
  rw [h.get?_of_ne (Option.some_ne_none key).symm]

/-- A name that is free early is free late as well, and it is not the one in question. -/
theorem get?_eq_none (h : NamedEarly name? slot late early) {key : String}
    (hkey : early.aliases.get? key = none) :
    name? ≠ some key ∧ late.aliases.get? key = none := by
  rw [h.get?_eq] at hkey
  split at hkey
  · cases hkey
  · exact ⟨‹_›, hkey⟩

theorem keepsBelow_late (h : NamedEarly name? slot late early) :
    KeepsBelow slot late.aliases early.aliases := by
  intro key k hk hkey
  rw [h.get?_eq] at hkey
  split at hkey
  · cases hkey
    exact absurd hk (Nat.lt_irrefl _)
  · exact hkey

theorem keepsBelow_early (h : NamedEarly name? slot late early) :
    KeepsBelow slot early.aliases late.aliases := by
  intro key k _ hkey
  rw [h.get?_of_ne, hkey]
  intro hname
  rw [h.free key hname] at hkey
  cases hkey

theorem withSchemas (h : NamedEarly name? slot late early) (schemas : List (Option String)) :
    NamedEarly name? slot ⟨late.aliases, schemas⟩ ⟨early.aliases, schemas⟩ :=
  ⟨rfl, h.get?_eq, h.free⟩

/-- The slots of the next join join both. -/
theorem grow (h : NamedEarly name? slot late early) (schemas : List (Option String)) :
    NamedEarly name? slot ⟨late.aliases, late.schemas ++ schemas⟩
      ⟨early.aliases, early.schemas ++ schemas⟩ :=
  ⟨congrArg (· ++ schemas) h.schemas_eq, h.get?_eq, h.free⟩

/-- Another name may join both. -/
theorem insert (h : NamedEarly name? slot late early) {key : String} (hkey : name? ≠ some key)
    (k : Nat) :
    NamedEarly name? slot { late with aliases := late.aliases.insert key k }
      { early with aliases := early.aliases.insert key k } := by
  refine ⟨h.schemas_eq, fun n => ?_, fun name hname => ?_⟩
  · simp only [OrderedMap.get?_insert, h.get?_eq]
    by_cases hn : n = key
    · rw [if_pos hn, if_pos hn, hn, if_neg hkey]
    · rw [if_neg hn, if_neg hn]
  · have hne : name ≠ key := by
      rintro rfl
      exact hkey hname
    simp only [OrderedMap.get?_insert, if_neg hne, h.free name hname]

/-- Once the name is given late, too, the names are the same. -/
theorem get?_insert {name : String} (h : NamedEarly (some name) slot late early) (key : String) :
    (late.aliases.insert name slot).get? key = early.aliases.get? key := by
  rw [OrderedMap.get?_insert, h.get?_eq]
  simp only [Option.some.injEq, eq_comm]

end BoundSlots.NamedEarly

namespace Binder

variable {b : Binder} {inner : Query → Except Failure BoundQuery} {slots t late early : BoundSlots}
  {j : Join} {aliasName name? : Option String} {slot : Nat}

/-- An alias is known, whatever the names are, or it is supplied, free and now taken. -/
theorem bindAlias_cases (h : b.bindAlias slots j = .ok (aliasName, t)) :
    (t = slots ∧ ∀ slots', b.bindAlias slots' j = .ok (aliasName, slots')) ∨
      ∃ name, slots.aliases.get? name = none ∧
        t = { slots with aliases := slots.aliases.insert name j.slot } ∧
        ∀ slots', slots'.aliases.get? name = none → b.bindAlias slots' j =
          .ok (aliasName, { slots' with aliases := slots'.aliases.insert name j.slot }) := by
  by_cases hj : ∃ p, j.joinAlias = .explicit (.deferred p)
  · obtain ⟨p, hp⟩ := hj
    obtain ⟨arg, name, harg, hname⟩ := exists_name_of_bindAlias hp h
    rw [bindAlias_of_supplied hp harg hname] at h
    split at h
    · cases h
    · rename_i hfree
      cases h
      refine .inr ⟨name, by simpa using hfree, rfl, fun slots' hslots' => ?_⟩
      rw [bindAlias_of_supplied hp harg hname, if_neg (by simp [hslots'])]
  · have hknown := not_exists.mp hj
    rw [bindAlias_of_known hknown] at h
    cases h
    exact .inl ⟨rfl, fun slots' => bindAlias_of_known hknown⟩

theorem bindAlias_late (h : late.NamedEarly name? slot early)
    (hj : b.bindAlias early j = .ok (aliasName, t)) :
    ∃ t', b.bindAlias late j = .ok (aliasName, t') ∧ t'.NamedEarly name? slot t := by
  rcases bindAlias_cases hj with ⟨rfl, hany⟩ | ⟨name, hfree, rfl, hany⟩
  · exact ⟨late, hany late, h⟩
  · obtain ⟨hne, hlate⟩ := h.get?_eq_none hfree
    exact ⟨_, hany late hlate, h.insert hne j.slot⟩

theorem bindAlias_early {t' : BoundSlots} (h : late.NamedEarly name? slot early)
    (hj : b.bindAlias late j = .ok (aliasName, t'))
    (hfree : ∀ name ∈ name?, t'.aliases.get? name = none) :
    ∃ t, b.bindAlias early j = .ok (aliasName, t) ∧ t'.NamedEarly name? slot t := by
  rcases bindAlias_cases hj with ⟨rfl, hany⟩ | ⟨name, hlate, rfl, hany⟩
  · exact ⟨early, hany early, h⟩
  · have hne : name? ≠ some name := by
      intro hname
      have hnone := hfree name hname
      rw [OrderedMap.get?_insert, if_pos rfl] at hnone
      cases hnone
    exact ⟨_, hany early ((h.get?_of_ne hne).trans hlate), h.insert hne j.slot⟩

theorem bindJoin_late {bound : BoundJoin} (h : late.NamedEarly name? slot early)
    (hslot : j.slot + j.arity ≤ slot) (hj : b.bindJoin inner early j = .ok (bound, t)) :
    ∃ t', b.bindJoin inner late j = .ok (bound, t') ∧ t'.NamedEarly name? slot t := by
  obtain ⟨p, aliasName, halias, rfl⟩ := exists_parts_of_bindJoin hj
  let wide : b.Parts inner late j :=
    p.widen (fun _ _ hq => hq) h.schemas_eq (h.keepsBelow_late.mono hslot)
  obtain ⟨t', ht', hnamed⟩ := bindAlias_late (h.grow _) halias
  refine ⟨t', ?_, hnamed⟩
  rw [wide.bindJoin_eq]
  exact map_eq_ok.mpr ⟨_, ht', rfl⟩

theorem bindJoin_early {bound : BoundJoin} {t' : BoundSlots} (h : late.NamedEarly name? slot early)
    (hslot : j.slot + j.arity ≤ slot) (hj : b.bindJoin inner late j = .ok (bound, t'))
    (hfree : ∀ name ∈ name?, t'.aliases.get? name = none) :
    ∃ t, b.bindJoin inner early j = .ok (bound, t) ∧ t'.NamedEarly name? slot t := by
  obtain ⟨p, aliasName, halias, rfl⟩ := exists_parts_of_bindJoin hj
  let wide : b.Parts inner early j :=
    p.widen (fun _ _ hq => hq) h.schemas_eq.symm (h.keepsBelow_early.mono hslot)
  obtain ⟨t, ht, hnamed⟩ := bindAlias_early (h.grow _) halias hfree
  refine ⟨t, ?_, hnamed⟩
  rw [wide.bindJoin_eq]
  exact map_eq_ok.mpr ⟨_, ht, rfl⟩

/-! ## Runs over joins -/

/-- With the name given early, joins are bound to what they are bound to without it. -/
theorem bindJoins_late {js : List Join} {bounds : List BoundJoin}
    (h : late.NamedEarly name? slot early) (hslots : ∀ j ∈ js, j.slot + j.arity ≤ slot)
    (hjs : b.bindJoins inner early js = .ok (bounds, t)) :
    ∃ t', b.bindJoins inner late js = .ok (bounds, t') ∧ t'.NamedEarly name? slot t := by
  induction js generalizing early late bounds with
  | nil =>
    cases hjs
    exact ⟨late, rfl, h⟩
  | cons j rest ih =>
    obtain ⟨bound, u, hbound, more, hmore, rfl⟩ := bindJoins_cons_eq_ok_iff.mp hjs
    obtain ⟨u', hu', hnamed⟩ := bindJoin_late h (hslots j List.mem_cons_self) hbound
    obtain ⟨t', ht', hlast⟩ := ih hnamed (fun k hk => hslots k (List.mem_cons_of_mem _ hk)) hmore
    exact ⟨t', bindJoins_cons_eq_ok_iff.mpr ⟨bound, u', hu', more, ht', rfl⟩, hlast⟩

/-- A name that has been given stays. -/
theorem extends_of_bindJoins {js : List Join} {bounds : List BoundJoin}
    (h : b.bindJoins inner slots js = .ok (bounds, t)) : t.aliases.Extends slots.aliases := by
  induction js generalizing slots bounds with
  | nil =>
    cases h
    exact .refl _
  | cons j rest ih =>
    obtain ⟨bound, u, hbound, more, hmore, rfl⟩ := bindJoins_cons_eq_ok_iff.mp h
    obtain ⟨p, aliasName, halias, -⟩ := exists_parts_of_bindJoin hbound
    refine (ih hmore).trans ?_
    rcases bindAlias_cases halias with ⟨rfl, -⟩ | ⟨name, hfree, rfl, -⟩
    · exact .refl _
    · exact OrderedMap.extends_insert hfree j.slot

/-- Without the name, joins are bound to what they are bound to with it, if none of them takes
it. -/
theorem bindJoins_early {js : List Join} {bounds : List BoundJoin} {t' : BoundSlots}
    (h : late.NamedEarly name? slot early) (hslots : ∀ j ∈ js, j.slot + j.arity ≤ slot)
    (hjs : b.bindJoins inner late js = .ok (bounds, t'))
    (hfree : ∀ name ∈ name?, t'.aliases.get? name = none) :
    ∃ t, b.bindJoins inner early js = .ok (bounds, t) ∧ t'.NamedEarly name? slot t := by
  induction js generalizing early late bounds with
  | nil =>
    cases hjs
    exact ⟨early, rfl, h⟩
  | cons j rest ih =>
    obtain ⟨bound, u', hbound, more, hmore, rfl⟩ := bindJoins_cons_eq_ok_iff.mp hjs
    have hfree' : ∀ name ∈ name?, u'.aliases.get? name = none :=
      fun name hname => (extends_of_bindJoins hmore).get?_eq_none (hfree name hname)
    obtain ⟨u, hu, hnamed⟩ := bindJoin_early h (hslots j List.mem_cons_self) hbound hfree'
    obtain ⟨t, ht, hlast⟩ := ih hnamed (fun k hk => hslots k (List.mem_cons_of_mem _ hk)) hmore
    exact ⟨t, bindJoins_cons_eq_ok_iff.mpr ⟨bound, u, hu, more, ht, rfl⟩, hlast⟩

end Binder

end StagedJoin
