import StagedJoin.Proofs.Query.Reachable
import StagedJoin.Proofs.Condition.Relocation

/-!
Where the joins of a query come from. Each join of a reachable query has been built
from an invocation and has been moved behind more slots by every absorption since;
only an inferred alias can have been lost on the way. The clause that was given for
it has moved along, and the condition of its association stands in front of that
clause once and only once.
-/
namespace StagedJoin

/-! ## Moves -/

theorem JoinSource.shift_shift (m n : Nat) (source : JoinSource) :
    (source.shift m).shift n = source.shift (m + n) := by
  cases source <;> simp only [shift, shiftSlot_shiftSlot]

theorem JoinSource.shift_by_zero (source : JoinSource) : source.shift 0 = source := by
  cases source <;> simp only [shift, shiftSlot_by_zero]

namespace Join

variable {m n : Nat} {j k l : Join}

theorem shift_shift (m n : Nat) (j : Join) : (j.shift m).shift n = j.shift (m + n) := by
  simp only [shift, JoinSource.shift_shift, OnClause.shift_shift, Nat.add_assoc]

theorem shift_by_zero (j : Join) : j.shift 0 = j := by
  cases j
  simp only [shift, JoinSource.shift_by_zero, OnClause.shift_by_zero, Nat.add_zero]

theorem MovesTo.refl (j : Join) : j.MovesTo 0 j := .inl j.shift_by_zero.symm

theorem MovesTo.trans (hk : j.MovesTo m k) (hl : k.MovesTo n l) : j.MovesTo (m + n) l := by
  rw [MovesTo, ← shift_shift]
  rcases hk with rfl | ⟨hinferred, rfl⟩
  · exact hl
  · rcases hl with rfl | ⟨⟨name, hname⟩, -⟩
    · exact .inr ⟨hinferred, rfl⟩
    · cases hname

/-! ## Invocations -/

/-- `j` is the join that `c` builds for `i` on `q`, moved `offset` slots further. -/
def ComesFrom (c : Compiler) (q : Query) (i : Invocation) (offset : Nat) (j : Join) : Prop :=
  ∃ built, c.build q i = .ok built ∧ built.MovesTo offset j

theorem ComesFrom.move {c : Compiler} {q : Query} {i : Invocation} (h : j.ComesFrom c q i m)
    (hk : j.MovesTo n k) : k.ComesFrom c q i (m + n) := by
  obtain ⟨built, hbuilt, hj⟩ := h
  exact ⟨built, hbuilt, hj.trans hk⟩

end Join

/-- Every join of a query comes from an invocation as they are admitted, on a query that is built
in the same way. -/
theorem Query.BuiltWith.comesFrom {P : Invocation → Prop} {q : Query} (h : q.BuiltWith P) :
    ∀ j ∈ q.joins, ∃ c p i offset, p.BuiltWith P ∧ P i ∧ j.ComesFrom c p i offset := by
  induction h with
  | ofTableRef ref =>
    intro j hj
    cases hj
  | withAlias name _ ih => exact ih
  | withPrefix tablePrefix _ ih => exact ih
  | @join q r c i hq _ hi hr ih _ =>
    obtain ⟨built, hbuilt, hjoins, -⟩ := joins_of_join hr
    intro j hj
    rw [hjoins] at hj
    rcases List.mem_append.mp hj with hj | hj
    · exact ih j hj
    · rw [List.mem_singleton.mp hj]
      exact ⟨c, q, i, 0, hq, hi, built, hbuilt, .refl built⟩
  | absorb _ _ hr ih iho =>
    obtain ⟨-, -, moved, hjoins, hmoved⟩ := absorb_spec hr
    intro j hj
    rw [hjoins] at hj
    rcases List.mem_append.mp hj with hj | hj
    · exact ih j hj
    · obtain ⟨k, hk, hmove⟩ := exists_left_of_forall₂ hmoved hj
      obtain ⟨c, p, i, offset, hp, hi, horigin⟩ := iho k hk
      exact ⟨c, p, i, _, hp, hi, horigin.move hmove⟩

/-- Every join of a reachable query comes from an invocation on a reachable query. -/
theorem Query.Reachable.comesFrom {q : Query} (h : q.Reachable) :
    ∀ j ∈ q.joins, ∃ c p i offset, p.Reachable ∧ j.ComesFrom c p i offset := by
  intro j hj
  obtain ⟨c, p, i, offset, hp, -, horigin⟩ := h.builtWith.comesFrom j hj
  exact ⟨c, p, i, offset, hp.reachable, horigin⟩

/-! ## Clauses -/

namespace OnClause

/-- The clause behind the condition of an association, if there is one. -/
def behind (natural? : Option Condition) (clause : OnClause) : OnClause :=
  match natural? with
  | some natural => clause.withNatural natural
  | none => clause

/-- No condition has been put in front of what is deferred. -/
def Bare (clause : OnClause) : Prop := ∀ p natural, clause = .deferred p natural → natural = none

theorem Bare.shift {clause : OnClause} (h : clause.Bare) (offset : Nat) :
    (clause.shift offset).Bare := by
  intro p natural he
  cases clause with
  | compiled c => cases he
  | deferred p' natural' =>
    cases h p' natural' rfl
    cases he
    rfl

theorem bare_of_ofExpr? {compile : ConditionCompiler} {ctx : Context} {slot : Nat}
    {on : Option Expr} {clause : OnClause} (h : ofExpr? compile ctx slot on = .ok clause) :
    clause.Bare := by
  intro p natural he
  unfold ofExpr? at h
  split at h
  · cases h
    cases he
  · cases h
    cases he
    rfl
  · obtain ⟨c, -, h⟩ := bind_eq_ok.mp h
    cases h
    cases he
  · cases h
    cases he
  · cases h
  · obtain ⟨c, -, h⟩ := bind_eq_ok.mp h
    cases h
    cases he

theorem shift_behind (natural? : Option Condition) (clause : OnClause) (offset : Nat) :
    (clause.behind natural?).shift offset =
      (clause.shift offset).behind (natural?.map (Condition.shift offset)) := by
  cases natural? with
  | none => rfl
  | some natural => exact clause.shift_withNatural natural

end OnClause

namespace Compiler

variable {c : Compiler} {q : Query} {i : Invocation}

/-- What is in view of the clause that is given for a join. -/
def Parts.context (p : c.Parts q i) : Context :=
  ⟨p.joined, q.slotSchemas ++ p.sized.source.slotSchemas p.arity, c.view⟩

theorem onClause_eq_ok_iff {ctx : Context} {slot : Nat} {source : JoinSource} {on : Option Expr}
    {r : OnClause} : c.onClause ctx slot source on = .ok r ↔
      ∃ clause, OnClause.ofExpr? c.conditions ctx slot on = .ok clause ∧
        clause.behind (source.naturalCondition? slot) = r := by
  simp only [onClause, bind_eq_ok, pure_eq_ok]
  rfl

end Compiler

/-- `clause` is what was given for the join, at the slots where the join stands now. -/
inductive Join.Given : Join → OnClause → Prop
  | intro {c : Compiler} {q : Query} {i : Invocation} (p : c.Parts q i) {written : OnClause}
      {offset : Nat} {j : Join}
      (hwritten : OnClause.ofExpr? c.conditions p.context q.slotCount p.options.on? = .ok written)
      (hmove : p.join.MovesTo offset j) : Join.Given j (written.shift offset)

namespace Join

variable {j : Join} {clause : OnClause}

theorem exists_given {c : Compiler} {q : Query} {i : Invocation} {offset : Nat}
    (h : j.ComesFrom c q i offset) : ∃ clause, j.Given clause := by
  obtain ⟨built, hbuilt, hmove⟩ := h
  obtain ⟨p, rfl⟩ := Compiler.build_eq_ok_iff.mp hbuilt
  obtain ⟨written, hwritten, -⟩ := Compiler.onClause_eq_ok_iff.mp p.on_eq
  exact ⟨_, .intro p hwritten hmove⟩

theorem Given.bare (h : j.Given clause) : clause.Bare := by
  obtain ⟨p, hwritten, hmove⟩ := h
  exact (OnClause.bare_of_ofExpr? hwritten).shift _

/-- The clause of a join is the one that was given, behind the condition of its association if
the association has been found. -/
theorem Given.on_eq (h : j.Given clause) :
    j.on = clause.behind (j.source.naturalCondition? j.slot) := by
  obtain ⟨p, hwritten, hmove⟩ := h
  rename_i c q i written offset
  obtain ⟨written', hwritten', hon⟩ := Compiler.onClause_eq_ok_iff.mp p.on_eq
  change OnClause.ofExpr? c.conditions p.context q.slotCount p.options.on? = _ at hwritten'
  rw [hwritten] at hwritten'
  cases hwritten'
  have hnatural := p.sized.source.naturalCondition?_shift offset q.slotCount_pos
  rw [hmove.on_eq, hmove.source_eq, hmove.slot_eq]
  change p.on.shift offset =
    OnClause.behind ((p.sized.source.shift offset).naturalCondition? (q.slotCount + offset)) _
  rw [hnatural, ← OnClause.shift_behind, hon]

end Join

end StagedJoin
