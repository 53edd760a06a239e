import StagedJoin.Proofs.Bound.Parts

/-!
Binding with more in view. More aliases in front of a join and more depth for the
queries inside it leave everything that is bound as it is; only an alias that is
supplied may meet a name that is taken now. Of the aliases, only the names of the slots
up to those of the join count.
-/
namespace StagedJoin.Binder

variable {b : Binder} {slots slots' : BoundSlots} {j : Join}
  {inner inner' : Query → Except Failure BoundQuery}

/-- `inner'` binds whatever `inner` binds, in the same way. -/
def Deeper (inner' inner : Query → Except Failure BoundQuery) : Prop :=
  ∀ q bound, inner q = .ok bound → inner' q = .ok bound

theorem bindSource_congr (hs : slots'.schemas = slots.schemas) :
    b.bindSource inner slots' j = b.bindSource inner slots j := by
  simp only [bindSource, bindAssociation, findAssociation, bindValues, context, hs]

theorem bindSource_of_deeper (hd : Deeper inner' inner) {found : FoundSource}
    (h : b.bindSource inner slots j = .ok found) : b.bindSource inner' slots j = .ok found := by
  rw [bindSource_eq_ok_iff] at h ⊢
  cases h with
  | table hj => exact .table hj
  | runtime hj harg href => exact .runtime hj harg href
  | subquery hj hq hpre hbound => exact .subquery hj hq hpre (hd _ _ hbound)
  | association hj ha => exact .association hj ha
  | late hj ha hname hr => exact .late hj ha hname hr
  | values hj hlist hcells => exact .values hj hlist hcells

theorem suppliedCondition_of_keepsBelow (hs : slots'.schemas = slots.schemas)
    (ha : KeepsBelow (j.slot + j.arity) slots'.aliases slots.aliases) {p : Placeholder}
    {r : Condition × Arguments}
    (h : b.suppliedCondition slots j p = .ok r) : b.suppliedCondition slots' j p = .ok r := by
  obtain ⟨arg, harg, h⟩ := bind_eq_ok.mp h
  refine bind_eq_ok.mpr ⟨arg, harg, ?_⟩
  split at h
  · rename_i d
    obtain ⟨c, hc, h⟩ := bind_eq_ok.mp h
    refine bind_eq_ok.mpr ⟨c, ?_, h⟩
    unfold dynamicCondition at hc ⊢
    obtain ⟨scope, hscope, hc⟩ := bind_eq_ok.mp hc
    rw [hs]
    exact bind_eq_ok.mpr ⟨scope, Scope.resolve_of_keepsBelow ha hscope, hc⟩
  case h_2 =>
    simp only [context, hs] at h ⊢
    exact h
  all_goals exact h

theorem bindOn_of_keepsBelow (hs : slots'.schemas = slots.schemas)
    (ha : KeepsBelow (j.slot + j.arity) slots'.aliases slots.aliases) {late : Option Condition}
    {on : BoundCondition}
    (h : b.bindOn slots j late = .ok on) : b.bindOn slots' j late = .ok on := by
  obtain ⟨c, args, hc, hlast, hparams⟩ := bindOn_eq_ok_iff.mp h
  have hcontext : b.context slots' = b.context slots := by
    unfold context
    rw [hs]
  have hc' : b.onCondition slots' j = .ok (c, args) := by
    unfold onCondition at hc ⊢
    cases hon : j.on with
    | compiled d =>
      simp only [hon] at hc ⊢
      exact hc
    | deferred p natural =>
      simp only [hon] at hc ⊢
      obtain ⟨r, hr, hc⟩ := bind_eq_ok.mp hc
      exact bind_eq_ok.mpr ⟨r, suppliedCondition_of_keepsBelow hs ha hr, hc⟩
  refine bindOn_eq_ok_iff.mpr ⟨c, args, hc', hlast, ?_⟩
  rw [hcontext]
  exact hparams

/-- The parts of a join are the same with more in view. -/
def Parts.widen (p : b.Parts inner slots j) (hd : Deeper inner' inner)
    (hs : slots'.schemas = slots.schemas)
    (ha : KeepsBelow (j.slot + j.arity) slots'.aliases slots.aliases) :
    b.Parts inner' slots' j where
  found := p.found
  on := p.on
  tablePrefix := p.tablePrefix
  hints := p.hints
  extensions := p.extensions
  slot_eq := by rw [hs]; exact p.slot_eq
  found_eq := by
    rw [bindSource_congr hs]
    exact bindSource_of_deeper hd p.found_eq
  on_eq := by
    refine bindOn_of_keepsBelow ?_ ?_ p.on_eq
    · dsimp only
      rw [hs]
    · exact ha
  prefix_eq := p.prefix_eq
  hints_eq := p.hints_eq
  extensions_eq := p.extensions_eq

/-! ## More depth -/

theorem bindJoin_of_deeper (hd : Deeper inner' inner) {r : BoundJoin × BoundSlots}
    (h : b.bindJoin inner slots j = .ok r) : b.bindJoin inner' slots j = .ok r := by
  obtain ⟨bound, t⟩ := r
  obtain ⟨p, aliasName, halias, rfl⟩ := exists_parts_of_bindJoin h
  let wide : b.Parts inner' slots j := p.widen hd rfl fun _ _ _ h => h
  have halias' : b.bindAlias wide.grown j = .ok (aliasName, t) := halias
  rw [wide.bindJoin_eq, halias']
  rfl

theorem bindJoins_of_deeper (hd : Deeper inner' inner) {js : List Join}
    {r : List BoundJoin × BoundSlots} (h : b.bindJoins inner slots js = .ok r) :
    b.bindJoins inner' slots js = .ok r := by
  induction js generalizing slots r with
  | nil => exact h
  | cons j rest ih =>
    obtain ⟨bounds, u⟩ := r
    obtain ⟨bound, t, hbound, more, hmore, rfl⟩ := bindJoins_cons_eq_ok_iff.mp h
    exact bindJoins_cons_eq_ok_iff.mpr
      ⟨bound, t, bindJoin_of_deeper hd hbound, more, ih hmore, rfl⟩

/-- A query that is bound within some depth is bound in the same way within more. -/
theorem bindWithin_deeper {m n : Nat} (h : m ≤ n) : Deeper (b.bindWithin n) (b.bindWithin m) := by
  induction m generalizing n with
  | zero =>
    intro q bound hq
    cases hq
  | succ m ih =>
    obtain ⟨n, rfl⟩ : ∃ k, n = k + 1 := ⟨n - 1, by omega⟩
    have hd : Deeper (b.bindWithin n) (b.bindWithin m) := ih (by omega)
    intro q bound hq
    obtain ⟨joins, t, hjoins, he⟩ := bindWithin_succ_eq_ok_iff.mp hq
    exact bindWithin_succ_eq_ok_iff.mpr ⟨joins, t, bindJoins_of_deeper hd hjoins, he⟩

/-! ## More aliases -/

end StagedJoin.Binder
