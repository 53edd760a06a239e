import StagedJoin.Proofs.Condition.Standard
import StagedJoin.Proofs.Query.Absorption
import StagedJoin.Proofs.Scope.Variables
import StagedJoin.Proofs.Source.Failures

/-!
Failures of a join that is built and of a query that is absorbed. With the standard
compiler of conditions they are ordinary: the clause of a join keeps to the slots in
view, which end with the last slot of the join, and the join stands at the slot that
comes next.
-/
namespace StagedJoin

/-! ## Qualifiers, options and variables -/

theorem Qualifier.orderly_ofExpr (supported : Option (List Qualifier)) (e : Expr) :
    Orderly (ofExpr supported e) := by
  unfold ofExpr
  repeat' split
  all_goals trivial

namespace Scope

theorem orderly_resolve (slots : Nat) (aliases : OrderedMap Nat) (bindings : Expr) :
    Orderly (resolve slots aliases bindings) := by
  unfold resolve
  dsimp only
  split
  · cases ofItems slots aliases _ <;> trivial
  · trivial

theorem orderly_checkFresh (s : Scope) (vars : JoinVars) : Orderly (s.checkFresh vars) := by
  unfold checkFresh
  split <;> trivial

theorem orderly_extend (s : Scope) (vars : JoinVars) (arity : Nat) :
    Orderly (s.extend vars arity) := by
  unfold extend
  exact (s.orderly_checkFresh vars).bind fun _ _ _ => trivial

end Scope

namespace JoinVars

theorem orderly_splitTarget (target : Expr) : Orderly (splitTarget target) := by
  unfold splitTarget
  split
  · split <;> trivial
  · trivial

theorem orderly_checkArity (vars : JoinVars) (slots : Nat) (site : String) :
    Orderly (vars.checkArity slots site) := by
  unfold checkArity
  split
  · split <;> trivial
  · trivial

end JoinVars

/-! ## Joins -/

theorem orderly_checkLastSlot {slot? : Option Nat} {last : Nat} (h : ∀ s ∈ slot?, s ≤ last) :
    Orderly (checkLastSlot slot? last) := by
  rw [checkLastSlot_eq_ok_iff (u := ()) |>.mpr h]
  trivial

theorem ResolvedAssociation.slots_condition_lt (r : ResolvedAssociation) {slot owner next : Nat}
    (hslot : slot < next) (howner : owner < next) : ∀ s ∈ (r.condition slot owner).slots, s < next := by
  simp [condition, Condition.slots, Term.eq, Term.slots, hslot, howner]

namespace Compiler

variable {c : Compiler}

theorem orderly_onClause (hc : c.conditions = .standard) {ctx : Context} {next slot : Nat}
    (h : ctx.Below next) (hslot : slot < next) {source : JoinSource}
    (howner : ∀ a, source = .association a → a.owner < next) (on : Option Expr) :
    Orderly (c.onClause ctx slot source on) fun clause => ∀ s ∈ clause.slots, s < next := by
  unfold onClause
  rw [hc]
  refine (OnClause.orderly_ofExpr? h hslot on).bind fun clause _ hclause => ?_
  cases source with
  | association a =>
    cases hr : a.resolved with
    | none =>
      simp only [JoinSource.naturalCondition?, hr]
      exact hclause
    | some r =>
      simp only [JoinSource.naturalCondition?, hr]
      exact OnClause.slots_withNatural_lt (r.slots_condition_lt hslot (howner a rfl)) hclause
  | _ => exact hclause

/-- A join is built at the next slot, or its invocation is refused for what it says. -/
theorem orderly_build (hc : c.conditions = .standard) (q : Query) (i : Invocation) :
    Orderly (c.build q i) fun j => j.slot = q.slotCount := by
  unfold build
  refine (Qualifier.orderly_ofExpr _ _).bind fun qualifier _ _ => ?_
  refine (JoinOptions.orderly_ofExpr? _ _ _).bind fun options _ _ => ?_
  refine (Scope.orderly_resolve _ _ _).bind fun scope hscope _ => ?_
  refine (JoinVars.orderly_splitTarget _).bind fun (vars, target) htarget _ => ?_
  refine (scope.orderly_checkFresh vars).bind fun _ _ _ => ?_
  refine (JoinSource.orderly_ofExpr _ _).bind fun sized hsized _ => ?_
  refine (vars.orderly_checkArity _ _).bind fun _ harity _ => ?_
  refine (scope.orderly_extend vars _).bind fun joined hjoined _ => ?_
  dsimp only
  have hsound := JoinSource.sound_ofExpr hsized
  have hpos : 1 ≤ vars.arityWith sized := hsound.one_le_arityWith htarget
  obtain ⟨hview, hslots⟩ := Scope.inView_of_resolve hscope
  obtain ⟨hjoinedView, hjoinedSlots⟩ :=
    hview.extend (JoinVars.nodup_names_of_splitTarget htarget) harity hjoined
  have hnext : joined.slots = q.slotCount + vars.arityWith sized := by
    rw [hjoinedSlots, hslots]
    rfl
  have howner : ∀ a, sized.source = .association a → a.owner < joined.slots := by
    intro a ha
    obtain ⟨name, hname⟩ := hsound.owner a ha
    have hlt := hview name a.owner hname
    omega
  have hbelow : Context.Below joined.slots
      ⟨joined, q.slotSchemas ++ sized.source.slotSchemas (vars.arityWith sized), c.view⟩ :=
    hjoinedView
  refine (orderly_onClause hc hbelow (by omega) howner options.on?).bind fun on _ hon => ?_
  have hlast : ∀ s ∈ on.maxSlot?, s ≤ q.slotCount + vars.arityWith sized - 1 := by
    refine (on.forall_mem_maxSlot? _).mpr fun s hs => ?_
    have hlt := hon s hs
    omega
  exact (orderly_checkLastSlot hlast).bind fun _ _ _ => rfl

end Compiler

namespace Query

theorem orderly_registerAlias (aliases : OrderedMap Nat) (slot : Nat) (name? : Option String) :
    Orderly (registerAlias aliases slot name?) := by
  unfold registerAlias
  split
  · trivial
  · split <;> trivial

/-- At the next slot, a join is appended unless its alias is taken. -/
theorem orderly_append {q : Query} {j : Join} (h : j.slot = q.slotCount) :
    Orderly (q.append j) := by
  unfold append
  rw [if_neg (not_not_intro h)]
  split
  · rename_i hfail
    exact (orderly_registerAlias _ _ _).ordinary hfail
  · trivial

theorem orderly_shareBaseAliases (aliases : OrderedMap Nat) (entries : List (String × Nat)) :
    Orderly (shareBaseAliases aliases entries) := by
  induction entries generalizing aliases with
  | nil => trivial
  | cons e rest ih =>
    obtain ⟨name, slot⟩ := e
    rw [shareBaseAliases]
    split
    · exact ih _
    · split
      · exact ih _
      · trivial
      · exact ih _

/-- Joins that follow each other go, moved, to the slots that come next. -/
theorem orderly_appendShifted {q : Query} {offset first : Nat} {js : List Join}
    (h : Join.Contiguous first js) (hq : q.slotCount = first + offset) :
    Orderly (q.appendShifted offset js) := by
  induction js generalizing q first with
  | nil => trivial
  | cons j rest ih =>
    obtain ⟨hslot, hrest⟩ := h
    have hmove := movesTo_yieldAlias q.aliases offset j
    have hnext : (yieldAlias q.aliases (j.shift offset)).slot = q.slotCount := by
      rw [hmove.slot_eq, hslot, hq]
    rw [appendShifted]
    split
    · rename_i hfail
      exact (orderly_append hnext).ordinary hfail
    · rename_i q' hq'
      refine ih hrest ?_
      rw [slotCount_append hq', hmove.arity_eq, hq]
      omega

/-- Absorbing the joins of a query fails only on aliases. -/
theorem orderly_absorb (q : Query) {other : Query} (ho : other.Layout) :
    Orderly (q.absorb other) := by
  unfold absorb
  split
  · rename_i hfail
    exact (orderly_shareBaseAliases _ _).ordinary hfail
  · have hpos := q.slotCount_pos
    have hcount : (q.slotCount : Nat) = 1 + (q.slotCount - 1) := by omega
    exact orderly_appendShifted ho.contiguous hcount

end Query

/-- The report on a failed invocation has the code of its cause. -/
theorem InvocationFailure.code_diagnostic (f : InvocationFailure) :
    f.diagnostic.code = f.cause.code := by
  unfold diagnostic locatedCause
  split <;> rfl

theorem Compiler.ordinary_of_join {c : Compiler} (hc : c.conditions = .standard) {q : Query}
    {i : Invocation} {f : InvocationFailure} (h : c.join q i = .error f) : f.cause.Ordinary := by
  have hbuild := orderly_build hc q i
  unfold join at h
  split at h
  · rename_i hfail
    cases h
    exact hbuild.ordinary hfail
  · rename_i j hj
    have happend := Query.orderly_append (hbuild.post hj)
    cases hr : q.append j with
    | error cause =>
      rw [hr] at h
      cases h
      exact happend.ordinary hr
    | ok r =>
      rw [hr] at h
      cases h

end StagedJoin
