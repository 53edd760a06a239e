import StagedJoin.Proofs.Compiler.Parts

/-!
The slot layout of a query. Joins stand one behind the other without a gap; each
keeps to its own slots and those before it, and every alias names a slot that is
there. Appending a join and absorbing another query keep the layout.
-/
namespace StagedJoin

/-! ## A single join -/

/-- The join takes at least one slot, knows a schema or its absence for each, and mentions no
slot behind its last. -/
structure Join.WellPlaced (j : Join) : Prop where
  arity_pos : 1 ≤ j.arity
  length_schemas : j.schemas.length = j.arity
  on_le : ∀ s ∈ j.on.slots, s ≤ j.slot + j.arity - 1
  owner_lt : ∀ a, j.source = .association a → a.owner < j.slot
  subquery_arity : ∀ q p, j.source = .subquery (.literal q) p → j.arity = q.slotCount

theorem JoinSource.shift_eq_subquery_iff {source : JoinSource} {offset : Nat} {query : Staged Query}
    {p : Option (Staged String)} :
    source.shift offset = .subquery query p ↔ source = .subquery query p := by
  cases source <;> simp [shift]

theorem JoinSource.shift_eq_values_iff {source : JoinSource} {offset : Nat}
    {values : ValuesSource} : source.shift offset = .values values ↔ source = .values values := by
  cases source <;> simp [shift]

namespace Join

theorem WellPlaced.shift {j : Join} (h : j.WellPlaced) (offset : Nat) :
    (j.shift offset).WellPlaced where
  arity_pos := h.arity_pos
  length_schemas := h.length_schemas
  on_le := by
    intro s hs
    change s ∈ (j.on.shift offset).slots at hs
    rw [OnClause.slots_shift] at hs
    have hle := forall_mem_map_shiftSlot_le offset h.on_le s hs
    have hpos := h.arity_pos
    simp only [Join.shift]
    omega
  owner_lt := by
    intro a ha
    have hsource : j.source.shift offset = .association a := ha
    cases hj : j.source <;> rw [hj] at hsource <;> cases hsource
    exact shiftSlot_lt offset (h.owner_lt _ hj)
  subquery_arity := by
    intro q p hq
    exact h.subquery_arity q p (JoinSource.shift_eq_subquery_iff.mp hq)

theorem WellPlaced.yieldAlias {j : Join} (h : j.WellPlaced) (aliases : OrderedMap Nat) :
    (Query.yieldAlias aliases j).WellPlaced := by
  unfold Query.yieldAlias
  split
  · split
    · exact ⟨h.arity_pos, h.length_schemas, h.on_le, h.owner_lt, h.subquery_arity⟩
    · exact h
  · exact h

/-- Each join starts where the one before it ends, the first of them at slot `first`. -/
def Contiguous (first : Nat) : List Join → Prop
  | [] => True
  | j :: rest => j.slot = first ∧ Contiguous (first + j.arity) rest

theorem contiguous_of_slot_eq {js : List Join} {first : Nat}
    (h : ∀ k j, js[k]? = some j → j.slot = first + totalArity (js.take k)) :
    Contiguous first js := by
  induction js generalizing first with
  | nil => trivial
  | cons j rest ih =>
    refine ⟨h 0 j rfl, ih fun k i hi => ?_⟩
    rw [h (k + 1) i hi, List.take_succ_cons, totalArity, Nat.add_assoc]

theorem Contiguous.slot_add_arity_le {js : List Join} {first : Nat} (h : Contiguous first js) :
    ∀ j ∈ js, j.slot + j.arity ≤ first + totalArity js := by
  induction js generalizing first with
  | nil => exact fun _ hj => nomatch hj
  | cons j rest ih =>
    obtain ⟨rfl, hrest⟩ := h
    intro k hk
    rw [totalArity]
    rcases List.mem_cons.mp hk with rfl | hk
    · omega
    · have hle := ih hrest k hk
      omega

theorem totalArity_append (js ks : List Join) :
    totalArity (js ++ ks) = totalArity js + totalArity ks := by
  induction js with
  | nil => exact (Nat.zero_add _).symm
  | cons j rest ih => rw [List.cons_append, totalArity, totalArity, ih, Nat.add_assoc]

end Join

/-! ## Appending and absorbing, by their outcomes -/

namespace Query

theorem slotCount_pos (q : Query) : 0 < q.slotCount := by
  rw [slotCount]
  omega

theorem registerAlias_eq_ok_iff {aliases r : OrderedMap Nat} {slot : Nat} {name? : Option String} :
    registerAlias aliases slot name? = .ok r ↔
      (∀ name ∈ name?, aliases.get? name = none) ∧
        r = name?.elim aliases (aliases.insert · slot) := by
  cases name? with
  | none => simp [registerAlias, eq_comm]
  | some name => cases h : aliases.get? name <;> simp [registerAlias, h, eq_comm]

theorem append_eq_ok_iff {q r : Query} {j : Join} :
    q.append j = .ok r ↔ j.slot = q.slotCount ∧
      ∃ aliases, registerAlias q.aliases j.slot j.joinAlias.name? = .ok aliases ∧
        r = ⟨q.base, q.joins ++ [j], aliases⟩ := by
  unfold append
  by_cases hs : j.slot = q.slotCount
  · cases registerAlias q.aliases j.slot j.joinAlias.name? <;> simp [hs, eq_comm]
  · simp [hs]

theorem slotCount_append {q r : Query} {j : Join} (h : q.append j = .ok r) :
    r.slotCount = q.slotCount + j.arity := by
  obtain ⟨-, aliases, -, rfl⟩ := append_eq_ok_iff.mp h
  have hsum := Join.totalArity_append q.joins [j]
  simp only [slotCount, hsum, Join.totalArity]
  omega

theorem appendShifted_cons_eq_ok_iff {q r : Query} {offset : Nat} {j : Join} {rest : List Join} :
    q.appendShifted offset (j :: rest) = .ok r ↔
      ∃ q', q.append (yieldAlias q.aliases (j.shift offset)) = .ok q' ∧
        q'.appendShifted offset rest = .ok r := by
  rw [appendShifted]
  cases q.append (yieldAlias q.aliases (j.shift offset)) <;> simp

theorem absorb_eq_ok_iff {q other r : Query} :
    q.absorb other = .ok r ↔
      ∃ aliases, shareBaseAliases q.aliases other.aliases.entries = .ok aliases ∧
        appendShifted ⟨q.base, q.joins, aliases⟩ (q.slotCount - 1) other.joins = .ok r := by
  unfold absorb
  cases shareBaseAliases q.aliases other.aliases.entries <;> simp

end Query

/-! ## A whole query -/

/-- Joins follow each other without a gap, and aliases name slots that are there. -/
structure Query.Layout (q : Query) : Prop where
  slot_eq : ∀ k j, q.joins[k]? = some j → j.slot = 1 + Join.totalArity (q.joins.take k)
  wellPlaced : ∀ j ∈ q.joins, j.WellPlaced
  alias_lt : ∀ e ∈ q.aliases.entries, e.2 < q.slotCount

namespace Query

variable {q r other : Query} {j : Join}

theorem Layout.length_slotSchemas (h : q.Layout) : q.slotSchemas.length = q.slotCount := by
  have hlen : ∀ js : List Join, (∀ j ∈ js, j.WellPlaced) →
      (js.flatMap Join.schemas).length = Join.totalArity js := by
    intro js hjs
    induction js with
    | nil => rfl
    | cons j rest ih =>
      rw [List.flatMap_cons, List.length_append, Join.totalArity,
        (hjs j List.mem_cons_self).length_schemas, ih fun i hi => hjs i (List.mem_cons_of_mem _ hi)]
  rw [slotSchemas, List.length_cons, hlen q.joins h.wellPlaced, slotCount, Nat.add_comm]

/-- The joins of a layout follow each other from slot 1 on. -/
theorem Layout.contiguous (h : q.Layout) : Join.Contiguous 1 q.joins :=
  Join.contiguous_of_slot_eq h.slot_eq

theorem layout_ofTableRef (ref : TableRef) : (ofTableRef ref).Layout := by
  refine ⟨?_, ?_, ?_⟩
  · intro k j hj
    cases hj
  · intro j hj
    cases hj
  · intro e he
    cases he

theorem Layout.withAlias (h : q.Layout) (name : String) : (q.withAlias name).Layout := by
  refine ⟨h.slot_eq, h.wellPlaced, ?_⟩
  exact OrderedMap.forall_entries_insert (P := (· < q.slotCount)) h.alias_lt q.slotCount_pos

theorem Layout.withPrefix (h : q.Layout) (tablePrefix : String) :
    (q.withPrefix tablePrefix).Layout :=
  ⟨h.slot_eq, h.wellPlaced, h.alias_lt⟩

/-- A well placed join behind the last slot keeps the layout. -/
theorem Layout.append (h : q.Layout) (hj : j.WellPlaced) (hr : q.append j = .ok r) : r.Layout := by
  have hcount := slotCount_append hr
  obtain ⟨hslot, aliases, haliases, rfl⟩ := append_eq_ok_iff.mp hr
  obtain ⟨-, rfl⟩ := registerAlias_eq_ok_iff.mp haliases
  refine ⟨?_, ?_, ?_⟩
  · intro k i hi
    simp only at hi ⊢
    by_cases hk : k < q.joins.length
    · rw [List.getElem?_append_left hk] at hi
      rw [List.take_append_of_le_length (Nat.le_of_lt hk)]
      exact h.slot_eq k i hi
    · obtain ⟨hlt, -⟩ := List.getElem?_eq_some_iff.mp hi
      rw [List.length_append, List.length_singleton] at hlt
      have hk : k = q.joins.length := by omega
      subst hk
      rw [List.getElem?_concat_length] at hi
      cases hi
      rw [List.take_left]
      exact hslot
  · intro i hi
    rcases List.mem_append.mp hi with hi | hi
    · exact h.wellPlaced i hi
    · rw [List.mem_singleton.mp hi]
      exact hj
  · have hold : ∀ e ∈ q.aliases.entries, e.2 < q.slotCount + j.arity := by
      intro e he
      have hlt := h.alias_lt e he
      omega
    rw [hcount]
    cases j.joinAlias.name? with
    | none => exact hold
    | some name =>
      have hpos := hj.arity_pos
      exact OrderedMap.forall_entries_insert (P := (· < q.slotCount + j.arity)) hold (by omega)

theorem forall_entries_shareBaseAliases {P : Nat → Prop} (hzero : P 0)
    {aliases aliases' : OrderedMap Nat} {entries : List (String × Nat)}
    (h : shareBaseAliases aliases entries = .ok aliases') (ha : ∀ e ∈ aliases.entries, P e.2) :
    ∀ e ∈ aliases'.entries, P e.2 := by
  induction entries generalizing aliases with
  | nil =>
    cases h
    exact ha
  | cons e rest ih =>
    obtain ⟨name, slot⟩ := e
    rw [shareBaseAliases] at h
    split at h
    · exact ih h ha
    · split at h
      · exact ih h ha
      · cases h
      · exact ih h (OrderedMap.forall_entries_insert ha hzero)

theorem Layout.appendShifted {offset : Nat} {js : List Join} (h : q.Layout)
    (hjs : ∀ j ∈ js, j.WellPlaced) (hr : q.appendShifted offset js = .ok r) : r.Layout := by
  induction js generalizing q with
  | nil =>
    cases hr
    exact h
  | cons j rest ih =>
    obtain ⟨q', hq', hr⟩ := appendShifted_cons_eq_ok_iff.mp hr
    have hj := ((hjs j List.mem_cons_self).shift offset).yieldAlias q.aliases
    exact ih (h.append hj hq') (fun i hi => hjs i (List.mem_cons_of_mem _ hi)) hr

/-- The joins of another query with a layout may be taken over. -/
theorem Layout.absorb (h : q.Layout) (ho : other.Layout) (hr : q.absorb other = .ok r) :
    r.Layout := by
  obtain ⟨aliases, haliases, hr⟩ := absorb_eq_ok_iff.mp hr
  have hlt : ∀ e ∈ aliases.entries, e.2 < q.slotCount :=
    forall_entries_shareBaseAliases (P := (· < q.slotCount)) q.slotCount_pos haliases h.alias_lt
  have hshared : Layout ⟨q.base, q.joins, aliases⟩ := ⟨h.slot_eq, h.wellPlaced, hlt⟩
  exact hshared.appendShifted ho.wellPlaced hr

end Query

/-! ## Building a join -/

namespace Compiler

variable {c : Compiler} {q : Query} {i : Invocation}

/-- A join that has been built keeps to its own slots and those before it. -/
theorem Parts.wellPlaced (p : c.Parts q i) : p.join.WellPlaced where
  arity_pos := p.arity_pos
  length_schemas := JoinSource.length_slotSchemas p.arity p.sized.source
  on_le := by
    have hlast := checkLastSlot_eq_ok_iff.mp p.last_ok
    exact (OnClause.forall_mem_maxSlot? p.on _).mp hlast
  owner_lt := by
    intro a ha
    obtain ⟨name, hname⟩ := p.sound.owner a ha
    obtain ⟨hview, hslots⟩ := Scope.inView_of_resolve p.scope_eq
    have hlt := hview name a.owner hname
    rw [hslots] at hlt
    exact hlt
  subquery_arity := by
    intro inner tablePrefix hs
    have harity : p.sized.arity = some inner.slotCount := p.sound.subquery inner tablePrefix hs
    change p.arity = inner.slotCount
    simp [Parts.arity, JoinVars.arityWith, harity]

theorem join_eq_ok_iff {r : Query} :
    c.join q i = .ok r ↔ ∃ p : c.Parts q i, q.append p.join = .ok r := by
  unfold Compiler.join
  cases h : c.build q i with
  | error failure =>
    constructor
    · intro hr
      cases hr
    · rintro ⟨p, -⟩
      rw [build_eq_ok_iff.mpr ⟨p, rfl⟩] at h
      cases h
  | ok j =>
    simp only [mapError_eq_ok]
    constructor
    · intro hr
      obtain ⟨p, rfl⟩ := build_eq_ok_iff.mp h
      exact ⟨p, hr⟩
    · rintro ⟨p, hr⟩
      rw [build_eq_ok_iff.mpr ⟨p, rfl⟩] at h
      cases h
      exact hr

theorem Parts.join_eq_ok (p : c.Parts q i) {aliases : OrderedMap Nat}
    (h : Query.registerAlias q.aliases q.slotCount p.joinAlias.name? = .ok aliases) :
    c.join q i = .ok ⟨q.base, q.joins ++ [p.join], aliases⟩ :=
  join_eq_ok_iff.mpr ⟨p, Query.append_eq_ok_iff.mpr ⟨rfl, aliases, h, rfl⟩⟩

end Compiler

/-- A join puts one join behind those that are there. -/
theorem Query.joins_of_join {c : Compiler} {q r : Query} {i : Invocation} (h : c.join q i = .ok r) :
    ∃ j, c.build q i = .ok j ∧ r.joins = q.joins ++ [j] ∧ r.slotCount = q.slotCount + j.arity := by
  obtain ⟨p, hp⟩ := Compiler.join_eq_ok_iff.mp h
  have hcount := slotCount_append hp
  obtain ⟨-, aliases, -, rfl⟩ := append_eq_ok_iff.mp hp
  exact ⟨p.join, Compiler.build_eq_ok_iff.mpr ⟨p, rfl⟩, rfl, hcount⟩

theorem Query.Layout.join {c : Compiler} {q r : Query} {i : Invocation} (h : q.Layout)
    (hr : c.join q i = .ok r) : r.Layout := by
  obtain ⟨p, hp⟩ := Compiler.join_eq_ok_iff.mp hr
  exact h.append p.wellPlaced hp

end StagedJoin
