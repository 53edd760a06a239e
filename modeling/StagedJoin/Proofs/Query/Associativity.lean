import StagedJoin.Proofs.Query.Composition
import StagedJoin.Proofs.Query.Origin

/-!
Absorbing is associative. Moving joins twice is moving them once; an inferred alias that
is dropped in one grouping is dropped in the other, and the two groupings fail over the
same aliases. A query without joins and names is neutral on either side.
-/
namespace StagedJoin

namespace Query

variable {q r other : Query} {j : Join} {name : String}

/-! ## Two groupings -/

/-- Moving a join twice is moving it once, and it loses its alias if either move takes it. -/
theorem yieldAlias_yieldAlias {s t u : OrderedMap Nat} {m n : Nat}
    (h : ∀ name, j.joinAlias = .inferred name →
      (u.get? name).isSome = ((s.get? name).isSome || (t.get? name).isSome)) :
    yieldAlias t ((yieldAlias s (j.shift m)).shift n) = yieldAlias u (j.shift (m + n)) := by
  rw [← Join.shift_shift]
  by_cases hs : ∃ name, j.joinAlias = .inferred name ∧ (s.get? name).isSome
  · obtain ⟨name, hname, htaken⟩ := hs
    have hu : (u.get? name).isSome := by rw [h name hname, htaken, Bool.true_or]
    rw [yieldAlias_of_taken (j := j.shift m) hname htaken,
      yieldAlias_of_taken (j := (j.shift m).shift n) hname hu]
    exact yieldAlias_of_free fun _ h => nomatch h
  · have hfree : ∀ name, j.joinAlias = .inferred name → (s.get? name).isSome = false := by
      intro name hname
      rw [Bool.eq_false_iff]
      exact fun htaken => hs ⟨name, hname, htaken⟩
    have hkept : yieldAlias s (j.shift m) = j.shift m :=
      yieldAlias_of_free fun name hname => Option.isSome_eq_false_iff.mp (hfree name hname) |>
        Option.isNone_iff_eq_none.mp
    rw [hkept]
    refine yieldAlias_congr fun name hname => ?_
    have hinferred : j.joinAlias = .inferred name := hname
    rw [h name hinferred, hfree name hinferred, Bool.false_or]

namespace Absorbs

variable {shared : OrderedMap Nat}

theorem mem_joins (h : q.Absorbs other shared r) (hj : j ∈ q.joins) : j ∈ r.joins := by
  rw [h.joins_eq]
  exact List.mem_append_left _ hj

theorem exists_explicit (h : q.Absorbs other shared r) (hj : j ∈ other.joins)
    {given : Staged String} (hgiven : j.joinAlias = .explicit given) :
    ∃ k ∈ r.joins, k.joinAlias = .explicit given := by
  have hkept : yieldAlias shared (j.shift (q.slotCount - 1)) = j.shift (q.slotCount - 1) := by
    refine yieldAlias_of_free fun name hname => ?_
    cases hgiven.symm.trans hname
  refine ⟨j.shift (q.slotCount - 1), ?_, hgiven⟩
  rw [h.joins_eq, ← hkept]
  exact List.mem_append_right _ (List.mem_map_of_mem hj)

end Absorbs

section Associativity

variable {a b c ab bc s : Query} {sharedBC sharedA sharedAB sharedC : OrderedMap Nat}

/-- What `b` clashes over is still there when it has absorbed `c`. -/
theorem Clashes.of_left (hbc : b.Absorbs c sharedBC bc) (h : a.Clashes b name) :
    a.Clashes bc name := by
  have hzero : b.aliasSlot? name = some 0 → bc.aliasSlot? name = some 0 :=
    fun hb => (hbc.aliasSlot?_eq_zero_iff name).mpr (.inl hb)
  rcases h with (⟨hb, ha⟩ | ⟨j, hj, hname, ha⟩) | ⟨j, hj, hname, hb⟩
  · exact .inl (.inl ⟨hzero hb, ha⟩)
  · exact .inl (.inr ⟨j, hbc.mem_joins hj, hname, ha⟩)
  · exact .inr ⟨j, hbc.mem_joins hj, hname, hzero hb⟩

/-- What `c` clashes over with both, it clashes over with one of them. -/
theorem Clashes.of_right (hbc : b.Absorbs c sharedBC bc) (hab : a.Absorbs b sharedAB ab)
    (h : ab.Clashes c name) : b.Clashes c name ∨ a.Clashes bc name := by
  rcases h with (⟨hc, slot, hslot, hne⟩ | ⟨j, hj, hname, hsome⟩) | hc
  · rw [hab.aliasSlot?_eq] at hslot
    rcases Option.or_eq_some_iff.mp hslot with ha | ⟨-, hb⟩
    · exact .inr (.inl (.inl ⟨(hbc.aliasSlot?_eq_zero_iff name).mpr (.inr hc), slot, ha, hne⟩))
    · obtain ⟨origin, horigin, rfl⟩ := Option.map_eq_some_iff.mp hb
      have hpos : origin ≠ 0 := by
        rintro rfl
        exact hne rfl
      exact .inl (.inl (.inl ⟨hc, origin, horigin, hpos⟩))
  · rw [hab.aliasSlot?_eq, Option.isSome_or, Option.isSome_map, Bool.or_eq_true] at hsome
    rcases hsome with ha | hb
    · obtain ⟨k, hk, hgiven⟩ := hbc.exists_explicit hj hname
      exact .inr (.inl (.inr ⟨k, hk, hgiven, ha⟩))
    · exact .inl (.inl (.inr ⟨j, hj, hname, hb⟩))
  · exact .inl (.inr hc)

/-- Both ways of grouping come to the same joins under the same names. -/
theorem Absorbs.assoc (hb : b.Named) (hbc : b.Absorbs c sharedBC bc)
    (ha : a.Absorbs bc sharedA r) (hab : a.Absorbs b sharedAB ab) (hc : ab.Absorbs c sharedC s)
    (hcount : ab.slotCount - 1 = (b.slotCount - 1) + (a.slotCount - 1)) :
    s.base = r.base ∧ s.joins = r.joins ∧ ∀ name, s.aliasSlot? name = r.aliasSlot? name := by
  refine ⟨?_, ?_, fun name => ?_⟩
  · rw [hc.base_eq, hab.base_eq, ha.base_eq]
  · -- A join of `b` meets the names of `a` in both groupings, a join of `c` those of `a` and `b`.
    have hjoinsB : ∀ j ∈ b.joins, yieldAlias sharedAB (j.shift (a.slotCount - 1)) =
        yieldAlias sharedA (j.shift (a.slotCount - 1)) := by
      intro j hj
      refine yieldAlias_congr fun name hname => ?_
      have hinferred : j.joinAlias = .inferred name := hname
      have hsome : (b.aliasSlot? name).isSome :=
        hb.isSome_of_mem (Join.mem_knownNames.mpr ⟨j, hj, by rw [hinferred]; rfl⟩)
      have hsame : bc.aliasSlot? name = b.aliasSlot? name := by
        rw [hbc.aliasSlot?_eq, Option.or_of_isSome hsome]
      rw [hab.isSome_shared, ha.isSome_shared, hsame]
    have hjoinsC : ∀ j ∈ c.joins, yieldAlias sharedC (j.shift (ab.slotCount - 1)) =
        yieldAlias sharedA ((yieldAlias sharedBC (j.shift (b.slotCount - 1))).shift
          (a.slotCount - 1)) := by
      intro j _
      rw [hcount]
      refine (yieldAlias_yieldAlias fun name _ => ?_).symm
      have hbase := hbc.aliasSlot?_eq_zero_iff name
      rw [hc.isSome_shared, hbc.isSome_shared, ha.isSome_shared, hab.aliasSlot?_eq,
        Option.isSome_or, Option.isSome_map, decide_eq_decide.mpr hbase, Bool.decide_or]
      cases hget : b.aliasSlot? name <;> simp [Bool.or_comm, Bool.or_left_comm]
    rw [hc.joins_eq, hab.joins_eq, ha.joins_eq, hbc.joins_eq, List.append_assoc, List.map_append,
      List.map_map, List.map_congr_left hjoinsB, List.map_congr_left hjoinsC]
    rfl
  · rw [hc.aliasSlot?_eq, hab.aliasSlot?_eq, ha.aliasSlot?_eq, hbc.aliasSlot?_eq, Option.or_assoc,
      Option.map_or, Option.map_map, hcount]
    congr 3
    exact funext fun slot => (shiftSlot_shiftSlot _ _ slot).symm

end Associativity

/-! ## Bare queries -/

theorem absorb_of_bare {bare : Query} (hjoins : bare.joins = [])
    (haliases : bare.aliases = .empty) : q.absorb bare = .ok q := by
  rw [absorb, hjoins, haliases]
  cases q
  rfl

/-- A query comes to a bare one with its joins and names as they are. -/
theorem exists_absorb_into_bare {bare : Query} (hq : q.Reachable) (hfound : q.JoinsFound)
    (hjoins : bare.joins = []) (haliases : bare.aliases = .empty) :
    ∃ r, bare.absorb q = .ok r ∧ r.base = bare.base ∧ r.joins = q.joins ∧
      ∀ name, r.aliasSlot? name = q.aliasSlot? name := by
  have hl := hq.layout
  have hnone : ∀ name, bare.aliasSlot? name = none := by
    intro name
    rw [aliasSlot?, haliases, OrderedMap.get?_empty]
  have hclash : ∀ name, ¬ bare.Clashes q name := by
    intro name hclash
    rcases (hfound.clashes_iff hl).mp hclash with ⟨-, slot, hslot, -⟩ | ⟨_, _, _, hsome⟩
    · rw [hnone] at hslot
      cases hslot
    · rw [hnone] at hsome
      cases hsome
  have hzero : bare.slotCount - 1 = 0 := by
    rw [slotCount, hjoins]
    rfl
  obtain ⟨shared, r, hr, h⟩ := exists_absorbs hl hq.named hclash
  refine ⟨r, hr, h.base_eq, ?_, fun name => ?_⟩
  · have hkept : ∀ j ∈ q.joins, yieldAlias bare.aliases (j.shift (bare.slotCount - 1)) = j := by
      intro j _
      rw [hzero, Join.shift_by_zero]
      exact yieldAlias_of_free fun name _ => hnone name
    rw [h.joins_of_joinsFound hl hfound, hjoins, List.nil_append, List.map_congr_left hkept,
      List.map_id']
  · rw [h.aliasSlot?_eq, hnone, hzero, Option.none_or]
    cases q.aliasSlot? name with
    | none => rfl
    | some slot => rw [Option.map_some, shiftSlot_by_zero]

/-- If a query can absorb two that have been put together, it can absorb one after the other and
comes to the same. A bare query adds nothing, and it takes the joins and names of a query whose
joins are all found as they are. -/
theorem Reachable.absorb_assoc {b c : Query} (hb : b.Reachable) (hc : c.Reachable) :
    (∀ a bc r : Query, b.absorb c = .ok bc → a.absorb bc = .ok r →
      ∃ ab s, a.absorb b = .ok ab ∧ ab.absorb c = .ok s ∧
        s.base = r.base ∧ s.joins = r.joins ∧
        ∀ name, s.aliasSlot? name = r.aliasSlot? name) ∧
    ∀ q bare : Query, q.Reachable → q.JoinsFound → bare.joins = [] → bare.aliases = .empty →
      q.absorb bare = .ok q ∧
      ∃ r, bare.absorb q = .ok r ∧ r.base = bare.base ∧ r.joins = q.joins ∧
        ∀ name, r.aliasSlot? name = q.aliasSlot? name := by
  refine ⟨fun a bc r hbc hr => ?_, fun q bare hq hfound hjoins haliases =>
    ⟨absorb_of_bare hjoins haliases, exists_absorb_into_bare hq hfound hjoins haliases⟩⟩
  have hgrouped := Reachable.absorb hb hc hbc
  obtain ⟨sharedBC, habsorbsBC⟩ := absorbs_of_absorb hc.layout hc.named hbc
  obtain ⟨sharedA, habsorbsA⟩ := absorbs_of_absorb hgrouped.layout hgrouped.named hr
  obtain ⟨sharedAB, ab, hab, habsorbsAB⟩ := exists_absorbs hb.layout hb.named fun name hclash =>
    habsorbsA.not_clashes name (hclash.of_left habsorbsBC)
  obtain ⟨sharedC, s, hs, habsorbsC⟩ := exists_absorbs hc.layout hc.named fun name hclash =>
    (hclash.of_right habsorbsBC habsorbsAB).elim (habsorbsBC.not_clashes name)
      (habsorbsA.not_clashes name)
  have hcount : ab.slotCount - 1 = (b.slotCount - 1) + (a.slotCount - 1) := by
    have hpos := a.slotCount_pos
    rw [slotCount_absorb hab]
    omega
  exact ⟨ab, s, hab, hs, habsorbsBC.assoc hb.named habsorbsA habsorbsAB habsorbsC hcount⟩

end Query

namespace Sample

/-- The likes of three queries: only the first keep their name, in whatever grouping. -/
theorem absorb_likes_thrice :
    postsWithLikes.Reachable ∧ postsWithLikes.JoinsFound ∧
      (∃ bc r ab s, postsWithLikes.absorb postsWithLikes = .ok bc ∧
        discussedPosts.absorb bc = .ok r ∧
        discussedPosts.absorb postsWithLikes = .ok ab ∧ ab.absorb postsWithLikes = .ok s ∧
        s.joins = r.joins ∧ s.aliasSlot? "likes" = r.aliasSlot? "likes") ∧
      ∃ r, posts.absorb postsWithLikes = .ok r ∧ r.joins = postsWithLikes.joins := by
  have hfound := namesApart_postsWithLikes.joinsFound
  have hassoc := Query.Reachable.absorb_assoc reachable_postsWithLikes reachable_postsWithLikes
  have hgroup : ∃ bc r, postsWithLikes.absorb postsWithLikes = .ok bc ∧
      discussedPosts.absorb bc = .ok r := ⟨_, _, rfl, rfl⟩
  obtain ⟨bc, r, hbc, hr⟩ := hgroup
  obtain ⟨ab, s, hab, hs, -, hjoins, hnames⟩ := hassoc.1 discussedPosts bc r hbc hr
  obtain ⟨-, t, ht, -, htjoins, -⟩ :=
    hassoc.2 postsWithLikes posts reachable_postsWithLikes hfound rfl rfl
  exact ⟨reachable_postsWithLikes, hfound,
    ⟨bc, r, ab, s, hbc, hr, hab, hs, hjoins, hnames "likes"⟩, t, ht, htjoins⟩

end Sample

end StagedJoin
