import StagedJoin.Proofs.Query.Composition

/-!
What the alias table of a query says. A join is found under its alias unless the base has
been given that name afterwards: naming the base is the one step that does not ask
whether a name is taken, where a join and an absorption refuse it.
-/
namespace StagedJoin

namespace Query

variable {q r other : Query}

theorem extends_join {c : Compiler} {i : Invocation} (h : c.join q i = .ok r) :
    r.aliases.Extends q.aliases := by
  obtain ⟨p, hp⟩ := Compiler.join_eq_ok_iff.mp h
  obtain ⟨-, aliases, haliases, rfl⟩ := append_eq_ok_iff.mp hp
  exact extends_registerAlias haliases

/-- A join whose alias is taken is refused. -/
theorem join_of_taken {c : Compiler} {i : Invocation} {j : Join} {name : String}
    (hj : c.build q i = .ok j) (hname : j.joinAlias.name? = some name)
    (htaken : (q.aliasSlot? name).isSome) : c.join q i = .error ⟨aliasTaken name, i⟩ := by
  obtain ⟨p, rfl⟩ := Compiler.build_eq_ok_iff.mp hj
  rw [Compiler.join, hj]
  exact congrArg (Except.mapError _) (append_of_taken rfl hname htaken)

/-- Aliases of a reachable query. No two joins share one, and a name stands for the base or for the
join that carries it; if the base was never given the name of a join, every join is found under its
alias. A join and an absorption keep every alias at its slot or are refused for one that is taken;
naming the base keeps them only if the name does not stand for a join. -/
theorem Reachable.aliases_consistent (h : q.Reachable) :
    (q.NamesApart → ∀ j ∈ q.joins, ∀ name ∈ j.joinAlias.name?, q.aliasSlot? name = some j.slot) ∧
    (∀ j ∈ q.joins, ∀ name ∈ j.joinAlias.name?,
      q.aliasSlot? name = some j.slot ∨ q.aliasSlot? name = some 0) ∧
    (∀ name slot, q.aliasSlot? name = some slot →
      slot = 0 ∨ ∃ j ∈ q.joins, j.joinAlias.name? = some name ∧ j.slot = slot) ∧
    (Join.knownNames q.joins).Nodup ∧
    (∀ tablePrefix, (q.withPrefix tablePrefix).aliases = q.aliases) ∧
    (∀ name, (q.withAlias name).aliases.Extends q.aliases ↔
      ∀ slot, q.aliasSlot? name = some slot → slot = 0) ∧
    (∀ (c : Compiler) (i : Invocation),
      (∀ r, c.join q i = .ok r → r.aliases.Extends q.aliases) ∧
      ∀ j, c.build q i = .ok j → ∀ name ∈ j.joinAlias.name?, (q.aliasSlot? name).isSome →
        c.join q i = .error ⟨.duplicateAlias name (":" ++ name), i⟩) ∧
    ∀ other : Query, other.Reachable →
      (∃ r, q.absorb other = .ok r ∧ r.aliases.Extends q.aliases) ∨
      ∃ name, q.absorb other = .error (.duplicateAlias name (":" ++ name)) ∧
        q.Clashes other name := by
  have hnamed := h.named
  refine ⟨NamesApart.joinsFound, hnamed.found, hnamed.carried, hnamed.nodup, fun _ => rfl,
    fun _ => extends_withAlias_iff, fun c i => ⟨fun r => extends_join, ?_⟩, ?_⟩
  · intro j hj name hname htaken
    exact join_of_taken hj hname htaken
  · intro other ho
    rcases absorb_cases q ho.layout ho.named with ⟨_, r, hr, -⟩ | herror
    · exact .inl ⟨r, hr, (absorb_spec hr).2.1⟩
    · exact .inr herror

end Query

namespace Sample

/-- The comments are found under their name; to join comments under it again is refused. -/
theorem aliases_consistent_discussedPosts :
    discussedPosts.Reachable ∧ discussedPosts.aliasSlot? "comment" = some 2 ∧
      compiler.join discussedPosts namedComments =
        .error ⟨.duplicateAlias "comment" ":comment", namedComments⟩ := by
  have h := reachable_discussedPosts.aliases_consistent
  have hfound := h.1 namesApart_discussedPosts (namedCommentsJoin 2)
    (List.mem_cons_of_mem _ List.mem_cons_self) "comment" rfl
  have hjoin := h.2.2.2.2.2.2.1 compiler namedComments
  exact ⟨reachable_discussedPosts, hfound, hjoin.2 (namedCommentsJoin 3) rfl "comment" rfl rfl⟩

/-- Posts that are named like their comments hide them: the join carries the name at slot 2, and the
name stands for slot 0. -/
theorem joins_hidden_by_base :
    (discussedPosts.withAlias "comment").Reachable ∧
      namedCommentsJoin 2 ∈ (discussedPosts.withAlias "comment").joins ∧
      (namedCommentsJoin 2).joinAlias.name? = some "comment" ∧
      (discussedPosts.withAlias "comment").aliasSlot? "comment" = some 0 ∧
      ¬ (discussedPosts.withAlias "comment").JoinsFound := by
  have hmem : namedCommentsJoin 2 ∈ (discussedPosts.withAlias "comment").joins :=
    List.mem_cons_of_mem _ List.mem_cons_self
  have hzero : (discussedPosts.withAlias "comment").aliasSlot? "comment" = some 0 := rfl
  refine ⟨.withAlias "comment" reachable_discussedPosts, hmem, rfl, hzero, fun hfound => ?_⟩
  have hslot := hfound _ hmem "comment" rfl
  rw [hzero] at hslot
  cases hslot

end Sample

end StagedJoin
