import StagedJoin.Proofs.Query.Names

/-!
Absorbing a query, in full. It fails exactly over an alias that the two queries hold
against each other; otherwise the joins follow in their order, without the inferred
aliases that are taken, and the names of the result are those of both queries.
-/
namespace StagedJoin

namespace Join

/-- The slot of the first join whose alias is the given name. -/
def slotNamed? (js : List Join) (name : String) : Option Nat :=
  (js.find? fun j => j.joinAlias.name? = some name).map Join.slot

@[simp] theorem slotNamed?_nil (name : String) : slotNamed? [] name = none := rfl

theorem slotNamed?_cons (j : Join) (js : List Join) (name : String) :
    slotNamed? (j :: js) name =
      (if j.joinAlias.name? = some name then some j.slot else none).or (slotNamed? js name) := by
  unfold slotNamed?
  rw [List.find?_cons]
  by_cases h : j.joinAlias.name? = some name <;> simp [h]

theorem slotNamed?_eq_none_iff {js : List Join} {name : String} :
    slotNamed? js name = none ↔ name ∉ knownNames js := by
  simp [slotNamed?, mem_knownNames]

end Join

namespace Query

variable {q r other : Query} {j : Join} {offset first : Nat} {name : String}

/-- Whether an inferred alias gives way depends on its own name only. -/
theorem yieldAlias_congr {aliases aliases' : OrderedMap Nat}
    (h : ∀ name, j.joinAlias = .inferred name →
      (aliases.get? name).isSome = (aliases'.get? name).isSome) :
    yieldAlias aliases j = yieldAlias aliases' j := by
  unfold yieldAlias
  split
  · rename_i name hname
    rw [OrderedMap.contains_eq_isSome, OrderedMap.contains_eq_isSome, h name hname]
  · rfl

theorem yieldAlias_of_free {aliases : OrderedMap Nat}
    (h : ∀ name, j.joinAlias = .inferred name → aliases.get? name = none) :
    yieldAlias aliases j = j := by
  unfold yieldAlias
  split
  · rename_i name hname
    simp [h name hname]
  · rfl

theorem yieldAlias_of_taken {aliases : OrderedMap Nat} (hname : j.joinAlias = .inferred name)
    (htaken : (aliases.get? name).isSome) : yieldAlias aliases j = j.withoutAlias := by
  simp only [yieldAlias, hname, OrderedMap.contains_eq_isSome]
  exact if_pos htaken

/-! ## The joins of a list, one after the other -/

/-- `r` is `q` with the joins of a list behind its own, moved by `offset`. -/
structure Grows (q : Query) (offset : Nat) (js : List Join) (r : Query) : Prop where
  base_eq : r.base = q.base
  joins_eq : r.joins = q.joins ++ js.map fun j => yieldAlias q.aliases (j.shift offset)
  /-- Aliases that are given were free. -/
  free : ∀ j ∈ js, ∀ name, j.joinAlias = .explicit (.literal name) → q.aliasSlot? name = none
  aliasSlot?_eq : ∀ name,
    r.aliasSlot? name = (q.aliasSlot? name).or ((Join.slotNamed? js name).map (· + offset))

theorem Grows.nil (q : Query) (offset : Nat) : q.Grows offset [] q where
  base_eq := rfl
  joins_eq := (List.append_nil _).symm
  free := fun _ hj => nomatch hj
  aliasSlot?_eq := fun _ => Option.or_none.symm

/-- A name that the join does not carry is as free behind it as before. -/
theorem Grows.aliasSlot?_of_ne (h : q.Grows offset [j] r) (hname : j.joinAlias.name? ≠ some name) :
    r.aliasSlot? name = q.aliasSlot? name := by
  rw [h.aliasSlot?_eq, Join.slotNamed?_cons, if_neg hname]
  exact Option.or_none

theorem Grows.cons {q' : Query} {rest : List Join} (h : q.Grows offset [j] q')
    (hrest : q'.Grows offset rest r)
    (hapart : ∀ name ∈ j.joinAlias.name?, name ∉ Join.knownNames rest) :
    q.Grows offset (j :: rest) r := by
  have hsame : ∀ k ∈ rest, ∀ name, k.joinAlias.name? = some name →
      q'.aliasSlot? name = q.aliasSlot? name := by
    intro k hk name hname
    exact h.aliasSlot?_of_ne fun hj =>
      hapart name hj (Join.mem_knownNames.mpr ⟨k, hk, hname⟩)
  refine ⟨hrest.base_eq.trans h.base_eq, ?_, ?_, ?_⟩
  · have hyield : ∀ k ∈ rest, yieldAlias q'.aliases (k.shift offset) =
        yieldAlias q.aliases (k.shift offset) := by
      intro k hk
      refine yieldAlias_congr fun name hname => ?_
      have hinferred : k.joinAlias = .inferred name := hname
      exact congrArg Option.isSome (hsame k hk name (by rw [hinferred]; rfl))
    rw [hrest.joins_eq, h.joins_eq, List.append_assoc, List.map_congr_left hyield]
    rfl
  · intro k hk name hname
    rcases List.mem_cons.mp hk with rfl | hk
    · exact h.free k List.mem_cons_self name hname
    · rw [← hsame k hk name (by rw [hname]; rfl)]
      exact hrest.free k hk name hname
  · intro name
    rw [hrest.aliasSlot?_eq, h.aliasSlot?_eq, Join.slotNamed?_cons j rest,
      Join.slotNamed?_cons j [], Option.or_assoc]
    by_cases hname : j.joinAlias.name? = some name <;> simp [hname]

theorem grows_of_free (hslot : j.slot + offset = q.slotCount)
    (hfree : ∀ name ∈ j.joinAlias.name?, q.aliasSlot? name = none) :
    ∃ r, q.append (yieldAlias q.aliases (j.shift offset)) = .ok r ∧ q.Grows offset [j] r := by
  have hyield : yieldAlias q.aliases (j.shift offset) = j.shift offset := by
    refine yieldAlias_of_free fun name hname => hfree name ?_
    have hinferred : j.joinAlias = .inferred name := hname
    rw [hinferred]
    rfl
  have hr : q.append (j.shift offset) = .ok _ :=
    append_eq_ok_iff.mpr ⟨hslot, _, registerAlias_eq_ok_iff.mpr ⟨hfree, rfl⟩, rfl⟩
  rw [hyield]
  refine ⟨_, hr, rfl, ?_, ?_, fun name => ?_⟩
  · rw [List.map_singleton, hyield]
  · intro k hk name hname
    rw [List.mem_singleton.mp hk] at hname
    exact hfree name (by rw [hname]; rfl)
  · rw [aliasSlot?_append hr, Join.slotNamed?_cons]
    by_cases hname : j.joinAlias.name? = some name <;> simp [Join.shift, hname]

/-- A join goes to the next slot, without an inferred alias that is taken, unless the alias that it
is given is taken. -/
theorem append_yieldAlias_cases (hslot : j.slot + offset = q.slotCount) :
    (∃ r, q.append (yieldAlias q.aliases (j.shift offset)) = .ok r ∧ q.Grows offset [j] r) ∨
    ∃ name, q.append (yieldAlias q.aliases (j.shift offset)) = .error (aliasTaken name) ∧
      j.joinAlias = .explicit (.literal name) ∧ (q.aliasSlot? name).isSome := by
  by_cases hfree : ∀ name ∈ j.joinAlias.name?, q.aliasSlot? name = none
  · exact .inl (grows_of_free hslot hfree)
  · simp only [not_forall, ← ne_eq, Option.ne_none_iff_isSome] at hfree
    obtain ⟨name, hname, htaken⟩ := hfree
    cases hj : j.joinAlias with
    | none =>
      rw [hj] at hname
      cases hname
    | explicit given =>
      have hyield : yieldAlias q.aliases (j.shift offset) = j.shift offset := by
        have hshift : (j.shift offset).joinAlias = .explicit given := hj
        simp only [yieldAlias, hshift]
      cases given with
      | deferred p =>
        rw [hj] at hname
        cases hname
      | literal given =>
        have hgiven : given = name := by
          rw [hj] at hname
          exact Option.some.inj hname
        subst hgiven
        rw [hyield]
        exact .inr ⟨given, append_of_taken hslot hname htaken, rfl, htaken⟩
    | inferred given =>
      have hgiven : given = name := by
        rw [hj] at hname
        exact Option.some.inj hname
      subst hgiven
      -- The alias gives way, so the join goes in as one without an alias.
      have hyield : yieldAlias q.aliases (j.shift offset) = j.withoutAlias.shift offset :=
        yieldAlias_of_taken (j := j.shift offset) hj htaken
      obtain ⟨r, hr, hgrows⟩ := grows_of_free (j := j.withoutAlias) hslot fun _ h => nomatch h
      have hkept : yieldAlias q.aliases (j.withoutAlias.shift offset) =
          j.withoutAlias.shift offset := yieldAlias_of_free fun _ h => nomatch h
      rw [hyield]
      rw [hkept] at hr
      refine .inl ⟨r, hr, hgrows.base_eq, ?_, ?_, ?_⟩
      · rw [hgrows.joins_eq, List.map_singleton, List.map_singleton, hyield, hkept]
      · intro k hk name hname
        rw [List.mem_singleton.mp hk, hj] at hname
        cases hname
      · intro name
        rw [hgrows.aliasSlot?_eq, Join.slotNamed?_cons, Join.slotNamed?_cons]
        by_cases hname : given = name
        · subst hname
          obtain ⟨slot, hslot⟩ := Option.isSome_iff_exists.mp htaken
          simp [hslot]
        · simp [Join.withoutAlias, JoinAlias.name?, hj, hname]

/-- The joins of a list go, moved, to the slots that come next, unless an alias that is given is
taken. -/
theorem appendShifted_cases {js : List Join} (hjs : Join.Contiguous first js)
    (hq : q.slotCount = first + offset) (hd : (Join.knownNames js).Nodup) :
    (∃ r, q.appendShifted offset js = .ok r ∧ q.Grows offset js r) ∨
    ∃ name, q.appendShifted offset js = .error (aliasTaken name) ∧
      ∃ j ∈ js, j.joinAlias = .explicit (.literal name) ∧ (q.aliasSlot? name).isSome := by
  induction js generalizing q first with
  | nil => exact .inl ⟨q, rfl, .nil q offset⟩
  | cons j rest ih =>
    obtain ⟨rfl, hrest⟩ := hjs
    rw [Join.knownNames_cons, List.nodup_append] at hd
    obtain ⟨-, hdrest, hdisjoint⟩ := hd
    have hapart : ∀ name ∈ j.joinAlias.name?, name ∉ Join.knownNames rest := by
      intro name hname hmem
      exact hdisjoint name (Option.mem_toList.mpr hname) name hmem rfl
    rw [appendShifted]
    rcases append_yieldAlias_cases hq.symm with ⟨q', hq', hgrows⟩ | ⟨name, herror, hname, htaken⟩
    · have hcount : q'.slotCount = j.slot + j.arity + offset := by
        rw [slotCount_append hq', (movesTo_yieldAlias q.aliases offset j).arity_eq, hq]
        omega
      rw [hq']
      rcases ih hrest hcount hdrest with ⟨r, hr, hmore⟩ | ⟨name, herror, k, hk, hname, htaken⟩
      · exact .inl ⟨r, hr, hgrows.cons hmore hapart⟩
      · refine .inr ⟨name, herror, k, List.mem_cons_of_mem _ hk, hname, ?_⟩
        rwa [← hgrows.aliasSlot?_of_ne]
        intro hj
        exact hapart name hj (Join.mem_knownNames.mpr ⟨k, hk, by rw [hname]; rfl⟩)
    · refine .inr ⟨name, ?_, j, List.mem_cons_self, hname, htaken⟩
      rw [herror]

/-! ## A whole query -/

/-- An alias that two queries hold against each other: it names the base of `other` and a join of
`q`, or it has been given to a join of `other` and is taken in `q`. -/
def Conflicts (q other : Query) (name : String) : Prop :=
  (other.aliasSlot? name = some 0 ∧ ∃ slot, q.aliasSlot? name = some slot ∧ slot ≠ 0) ∨
    ∃ j ∈ other.joins, j.joinAlias = .explicit (.literal name) ∧ (q.aliasSlot? name).isSome

/-- An alias over which an absorption fails: the queries conflict, or the base of `other` has taken
it from one of its own joins. -/
def Clashes (q other : Query) (name : String) : Prop :=
  q.Conflicts other name ∨
    ∃ j ∈ other.joins, j.joinAlias = .explicit (.literal name) ∧ other.aliasSlot? name = some 0

/-- `r` is what `q` becomes when it absorbs `other`; `shared` are its names once the base has those
of both queries. -/
structure Absorbs (q other : Query) (shared : OrderedMap Nat) (r : Query) : Prop where
  base_eq : r.base = q.base
  joins_eq : r.joins =
    q.joins ++ other.joins.map fun j => yieldAlias shared (j.shift (q.slotCount - 1))
  shared_eq : ∀ name, shared.get? name =
    (q.aliasSlot? name).or (if other.aliasSlot? name = some 0 then some 0 else none)
  not_clashes : ∀ name, ¬ q.Clashes other name
  aliasSlot?_eq : ∀ name, r.aliasSlot? name =
    (q.aliasSlot? name).or ((other.aliasSlot? name).map (shiftSlot (q.slotCount - 1)))

/-- What is no name of the base is the alias of the first join that carries it. -/
theorem Named.aliasSlot?_eq (h : q.Named) (hbase : q.aliasSlot? name ≠ some 0) :
    q.aliasSlot? name = Join.slotNamed? q.joins name := by
  cases hslot : Join.slotNamed? q.joins name with
  | none =>
    rw [Join.slotNamed?_eq_none_iff, Join.mem_knownNames] at hslot
    cases hget : q.aliasSlot? name with
    | none => rfl
    | some slot =>
      rcases h.carried name slot hget with rfl | ⟨j, hj, hname, -⟩
      · exact absurd hget hbase
      · exact absurd ⟨j, hj, hname⟩ hslot
  | some slot =>
    obtain ⟨j, hfind, rfl⟩ := Option.map_eq_some_iff.mp hslot
    have hname : j.joinAlias.name? = some name := by simpa using List.find?_some hfind
    exact (h.found j (List.mem_of_find?_eq_some hfind) name hname).resolve_right hbase

theorem map_shiftSlot_of_ne_zero {offset : Nat} {slot? : Option Nat} (h : slot? ≠ some 0) :
    slot?.map (shiftSlot offset) = slot?.map (· + offset) := by
  cases slot? with
  | none => rfl
  | some slot =>
    have hne : slot ≠ 0 := fun hzero => h (congrArg some hzero)
    simp [shiftSlot, hne]

/-- An absorption comes to the joins and names of both queries, or it fails over a name. -/
theorem absorb_cases (q : Query) (ho : other.Layout) (hn : other.Named) :
    (∃ shared r, q.absorb other = .ok r ∧ q.Absorbs other shared r) ∨
    ∃ name, q.absorb other = .error (aliasTaken name) ∧ q.Clashes other name := by
  have hbase : ∀ name, (name, 0) ∈ other.aliases.entries ↔ other.aliasSlot? name = some 0 :=
    fun name => OrderedMap.mem_entries_iff
  rcases shareBaseAliases_cases q.aliases other.aliases.entries with
    ⟨shared, hshared, hfree, hget⟩ | ⟨name, slot, herror, hname, hslot⟩
  · simp only [hbase] at hfree hget
    have hpos := q.slotCount_pos
    have hcount : slotCount ⟨q.base, q.joins, shared⟩ = 1 + (q.slotCount - 1) := by
      change q.slotCount = _
      omega
    have hsharedGet : ∀ name, aliasSlot? ⟨q.base, q.joins, shared⟩ name =
        (q.aliasSlot? name).or (if other.aliasSlot? name = some 0 then some 0 else none) := hget
    rw [absorb, hshared]
    rcases appendShifted_cases ho.contiguous hcount hn.nodup with
      ⟨r, hr, hgrows⟩ | ⟨name, herror, j, hj, hname, htaken⟩
    · refine .inl ⟨shared, r, hr, hgrows.base_eq, hgrows.joins_eq, hget, ?_, ?_⟩
      · have hnone : ∀ j ∈ other.joins, ∀ name, j.joinAlias = .explicit (.literal name) →
            q.aliasSlot? name = none ∧ other.aliasSlot? name ≠ some 0 := by
          intro j hj name hname
          have hshared := hgrows.free j hj name hname
          rw [hsharedGet, Option.or_eq_none_iff] at hshared
          simpa using hshared
        rintro name ((⟨hzero, slot, hslot, hne⟩ | ⟨j, hj, hname, htaken⟩) | ⟨j, hj, hname, hzero⟩)
        · exact hne (hfree name hzero slot hslot)
        · rw [(hnone j hj name hname).1] at htaken
          cases htaken
        · exact (hnone j hj name hname).2 hzero
      · intro name
        rw [hgrows.aliasSlot?_eq, hsharedGet, Option.or_assoc]
        by_cases hzero : other.aliasSlot? name = some 0
        · simp [hzero]
        · rw [if_neg hzero, map_shiftSlot_of_ne_zero hzero, hn.aliasSlot?_eq hzero, Option.none_or]
    · refine .inr ⟨name, herror, ?_⟩
      rw [hsharedGet, Option.isSome_or, Bool.or_eq_true] at htaken
      rcases htaken with htaken | hzero
      · exact .inl (.inr ⟨j, hj, hname, htaken⟩)
      · refine .inr ⟨j, hj, hname, ?_⟩
        by_contra hne
        rw [if_neg hne] at hzero
        cases hzero
  · refine .inr ⟨name, ?_, .inl (.inl ⟨(hbase name).mp hname, slot, hslot⟩)⟩
    rw [absorb, herror]

theorem absorbs_of_absorb (ho : other.Layout) (hn : other.Named) (h : q.absorb other = .ok r) :
    ∃ shared, q.Absorbs other shared r := by
  rcases absorb_cases q ho hn with ⟨shared, r', hr, habsorbs⟩ | ⟨name, herror, -⟩
  · cases hr.symm.trans h
    exact ⟨shared, habsorbs⟩
  · cases herror.symm.trans h

theorem exists_absorbs (ho : other.Layout) (hn : other.Named)
    (h : ∀ name, ¬ q.Clashes other name) :
    ∃ shared r, q.absorb other = .ok r ∧ q.Absorbs other shared r := by
  rcases absorb_cases q ho hn with hr | ⟨name, -, hname⟩
  · exact hr
  · exact absurd hname (h name)

theorem Layout.slot_pos (h : q.Layout) : ∀ j ∈ q.joins, 0 < j.slot := by
  intro j hj
  obtain ⟨k, hk⟩ := List.getElem?_of_mem hj
  rw [h.slot_eq k j hk]
  omega

/-- Where joins are found, the base has no name of theirs. -/
theorem JoinsFound.ne_zero (h : q.JoinsFound) (hl : q.Layout) (hj : j ∈ q.joins)
    (hname : j.joinAlias.name? = some name) : q.aliasSlot? name ≠ some 0 := by
  intro hzero
  have hslot := h j hj name hname
  rw [hzero] at hslot
  exact Nat.ne_of_gt (hl.slot_pos j hj) (Option.some.inj hslot).symm

theorem JoinsFound.clashes_iff (h : other.JoinsFound) (hl : other.Layout) :
    q.Clashes other name ↔ q.Conflicts other name := by
  refine ⟨fun hclash => hclash.resolve_right ?_, .inl⟩
  rintro ⟨j, hj, hname, hzero⟩
  exact h.ne_zero hl hj (by rw [hname]; rfl) hzero

/-! ## Conflicts of aliases -/

namespace Absorbs

variable {shared : OrderedMap Nat}

theorem slotSchemas_eq (h : q.Absorbs other shared r) :
    r.slotSchemas = q.slotSchemas ++ other.slotSchemas.tail := by
  have hschemas : ∀ j : Join,
      (yieldAlias shared (j.shift (q.slotCount - 1))).schemas = j.schemas := by
    intro j
    rcases movesTo_yieldAlias shared (q.slotCount - 1) j with hmove | ⟨-, hmove⟩
    · rw [hmove]
      rfl
    · rw [hmove]
      rfl
  rw [slotSchemas, slotSchemas, slotSchemas, h.base_eq, h.joins_eq, List.flatMap_append,
    List.flatMap_map, List.tail_cons, List.cons_append]
  simp only [hschemas]

/-- The names of the base are those of either base. -/
theorem aliasSlot?_eq_zero_iff (h : q.Absorbs other shared r) (name : String) :
    r.aliasSlot? name = some 0 ↔
      q.aliasSlot? name = some 0 ∨ other.aliasSlot? name = some 0 := by
  rw [h.aliasSlot?_eq]
  cases hq : q.aliasSlot? name with
  | none =>
    cases other.aliasSlot? name with
    | none => simp
    | some slot => by_cases hslot : slot = 0 <;> simp [shiftSlot, hslot]
  | some slot =>
    have hother : other.aliasSlot? name = some 0 → slot = 0 := by
      intro hzero
      by_contra hne
      exact h.not_clashes name (.inl (.inl ⟨hzero, slot, hq, hne⟩))
    simpa using hother

/-- Whether a name is taken once the base has the names of both queries. -/
theorem isSome_shared (h : q.Absorbs other shared r) (name : String) :
    (shared.get? name).isSome =
      ((q.aliasSlot? name).isSome || decide (other.aliasSlot? name = some 0)) := by
  rw [h.shared_eq, Option.isSome_or]
  by_cases hzero : other.aliasSlot? name = some 0 <;> simp [hzero]

/-- Where joins are found, a join that is absorbed loses its alias exactly if it is inferred and
taken. -/
theorem joins_of_joinsFound (h : q.Absorbs other shared r) (hl : other.Layout)
    (hfound : other.JoinsFound) : r.joins =
      q.joins ++ other.joins.map fun j => yieldAlias q.aliases (j.shift (q.slotCount - 1)) := by
  rw [h.joins_eq]
  congr 1
  refine List.map_congr_left fun j hj => yieldAlias_congr fun name hname => ?_
  have hinferred : j.joinAlias = .inferred name := hname
  have hcarried : j.joinAlias.name? = some name := by rw [hinferred]; rfl
  have hne := hfound.ne_zero hl hj hcarried
  rw [h.isSome_shared, decide_eq_false hne, Bool.or_false]
  rfl

/-- An alias of `other` behind its base that `q` has, too, is inferred. -/
theorem exists_inferred {slot : Nat} (h : q.Absorbs other shared r) (hn : other.Named)
    (hslot : other.aliasSlot? name = some slot)
    (hne : slot ≠ 0) (htaken : (q.aliasSlot? name).isSome) :
    ∃ j ∈ other.joins, j.joinAlias = .inferred name ∧ j.slot = slot := by
  obtain ⟨j, hj, hname, rfl⟩ := (hn.carried name slot hslot).resolve_left hne
  refine ⟨j, hj, ?_, rfl⟩
  cases hjoin : j.joinAlias with
  | none =>
    rw [hjoin] at hname
    cases hname
  | inferred given =>
    rw [hjoin] at hname
    cases hname
    rfl
  | explicit given =>
    rw [hjoin] at hname
    cases given with
    | deferred p => cases hname
    | literal given =>
      cases hname
      exact absurd (.inl (.inr ⟨j, hj, hjoin, htaken⟩)) (h.not_clashes name)

/-- A join that is absorbed moves, and an inferred alias that is taken is dropped. -/
theorem exists_moved (h : q.Absorbs other shared r) (hl : other.Layout)
    (hfound : other.JoinsFound) :
    ∃ moved, r.joins = q.joins ++ moved ∧ List.Forall₂ (fun j m =>
      ((∃ name, j.joinAlias = .inferred name ∧ (q.aliasSlot? name).isSome) →
        m = (j.shift (q.slotCount - 1)).withoutAlias) ∧
      ((∀ name, j.joinAlias = .inferred name → q.aliasSlot? name = none) →
        m = j.shift (q.slotCount - 1))) other.joins moved := by
  refine ⟨_, h.joins_of_joinsFound hl hfound, ?_⟩
  rw [List.forall₂_map_right_iff]
  refine List.forall₂_same.mpr fun j _ => ⟨?_, fun hfree => ?_⟩
  · rintro ⟨name, hname, htaken⟩
    exact yieldAlias_of_taken (j := j.shift _) hname htaken
  · exact yieldAlias_of_free (j := j.shift _) hfree

end Absorbs

theorem exists_conflict_of_absorb {failure : Failure} (hl : other.Layout) (hn : other.Named)
    (hfound : other.JoinsFound) (h : q.absorb other = .error failure) :
    ∃ name, failure = aliasTaken name ∧ q.Conflicts other name := by
  rcases absorb_cases q hl hn with ⟨_, _, hr, -⟩ | ⟨name, hname, hclash⟩
  · cases hr.symm.trans h
  · cases hname.symm.trans h
    exact ⟨name, rfl, (hfound.clashes_iff hl).mp hclash⟩

/-- A query takes the joins of another whose joins are all found exactly if no alias stands in the
way, and otherwise the failure names one that does. The names of the base come to slot 0 and those
of the joins move with them, but an inferred alias that is taken is dropped. -/
theorem Reachable.absorb_unless_conflict {q other : Query} (ho : other.Reachable)
    (hfound : other.JoinsFound) :
    ((∃ failure, q.absorb other = .error failure) ↔ ∃ name, q.Conflicts other name) ∧
    (∀ failure, q.absorb other = .error failure → failure.code = "JOIN_010" ∧
      ∃ name, failure = .duplicateAlias name (":" ++ name) ∧ q.Conflicts other name) ∧
    ∀ r, q.absorb other = .ok r →
      r.base = q.base ∧
      r.aliases.Extends q.aliases ∧
      r.slotCount = q.slotCount + other.slotCount - 1 ∧
      r.slotSchemas = q.slotSchemas ++ other.slotSchemas.tail ∧
      (∃ moved, r.joins = q.joins ++ moved ∧ List.Forall₂ (fun j m =>
        ((∃ name, j.joinAlias = .inferred name ∧ (q.aliasSlot? name).isSome) →
          m = (j.shift (q.slotCount - 1)).withoutAlias) ∧
        ((∀ name, j.joinAlias = .inferred name → q.aliasSlot? name = none) →
          m = j.shift (q.slotCount - 1))) other.joins moved) ∧
      (∀ name, other.aliasSlot? name = some 0 → r.aliasSlot? name = some 0) ∧
      (∀ name slot, other.aliasSlot? name = some slot → slot ≠ 0 → q.aliasSlot? name = none →
        r.aliasSlot? name = some (slot + (q.slotCount - 1))) ∧
      (∀ name slot, other.aliasSlot? name = some slot → slot ≠ 0 → (q.aliasSlot? name).isSome →
        r.aliasSlot? name = q.aliasSlot? name ∧
          ∃ j ∈ other.joins, j.joinAlias = .inferred name ∧ j.slot = slot) ∧
      ∀ name, q.aliasSlot? name = none → other.aliasSlot? name = none →
        r.aliasSlot? name = none := by
  have hl := ho.layout
  have hn := ho.named
  refine ⟨⟨?_, ?_⟩, ?_, ?_⟩
  · rintro ⟨failure, hfailure⟩
    obtain ⟨name, -, hconflict⟩ := exists_conflict_of_absorb hl hn hfound hfailure
    exact ⟨name, hconflict⟩
  · rintro ⟨name, hconflict⟩
    rcases absorb_cases q hl hn with ⟨_, _, -, habsorbs⟩ | ⟨given, hgiven, -⟩
    · exact absurd (.inl hconflict) (habsorbs.not_clashes name)
    · exact ⟨_, hgiven⟩
  · intro failure hfailure
    obtain ⟨name, rfl, hconflict⟩ := exists_conflict_of_absorb hl hn hfound hfailure
    exact ⟨rfl, name, rfl, hconflict⟩
  · intro r hr
    obtain ⟨shared, h⟩ := absorbs_of_absorb hl hn hr
    obtain ⟨-, hext, -⟩ := absorb_spec hr
    have hcount := slotCount_absorb hr
    have hpos := other.slotCount_pos
    refine ⟨h.base_eq, hext, by omega, h.slotSchemas_eq, h.exists_moved hl hfound,
      ?_, ?_, ?_, ?_⟩
    · exact fun name hzero => (h.aliasSlot?_eq_zero_iff name).mpr (.inr hzero)
    · intro name slot hslot hne hq
      rw [h.aliasSlot?_eq, hq, hslot, Option.none_or, Option.map_some,
        shiftSlot_of_pos (Nat.pos_of_ne_zero hne)]
    · intro name slot hslot hne htaken
      refine ⟨?_, h.exists_inferred hn hslot hne htaken⟩
      rw [h.aliasSlot?_eq, Option.or_of_isSome htaken]
    · intro name hq hother
      rw [h.aliasSlot?_eq, hq, hother]
      rfl

end Query

namespace Sample

/-- Of the likes of both queries only the first keep their name; a name that both have given is in
the way. -/
theorem absorb_discussedPosts :
    discussedPosts.Reachable ∧ discussedPosts.JoinsFound ∧
      (∃ r, postsWithLikes.absorb discussedPosts = .ok r ∧ r.slotCount = 4 ∧
        r.aliasSlot? "post" = some 0 ∧ r.aliasSlot? "comment" = some 3 ∧
        r.aliasSlot? "likes" = some 1) ∧
      discussedPosts.absorb discussedPosts = .error (.duplicateAlias "comment" ":comment") ∧
      ∃ name, discussedPosts.Conflicts discussedPosts name := by
  have hfound := namesApart_discussedPosts.joinsFound
  have hok := Query.Reachable.absorb_unless_conflict (q := postsWithLikes)
    reachable_discussedPosts hfound
  have hfail := Query.Reachable.absorb_unless_conflict (q := discussedPosts)
    reachable_discussedPosts hfound
  have habsorb : ∃ r, postsWithLikes.absorb discussedPosts = .ok r := ⟨_, rfl⟩
  obtain ⟨r, hr⟩ := habsorb
  obtain ⟨-, -, hcount, -, -, hbase, hmoved, hkept, -⟩ := hok.2.2 r hr
  have herror : discussedPosts.absorb discussedPosts =
      .error (.duplicateAlias "comment" ":comment") := rfl
  exact ⟨reachable_discussedPosts, hfound,
    ⟨r, hr, hcount, hbase "post" rfl, hmoved "comment" 2 rfl (by decide) rfl,
      (hkept "likes" 1 rfl (by decide) rfl).1⟩,
    herror, hfail.1.mp ⟨_, herror⟩⟩

end Sample

end StagedJoin
