import StagedJoin.Proofs.Scope.Slots

/-!
Binding lists read against more slots. A list that names the base and the last
slots, and nothing between, resolves against more slots to the same variables; the
base stays and the last slots move up by the difference. The variables that a join
adds move in the same way.
-/
namespace StagedJoin

/-- A binding list with at most a variable for the base and variables for the last slots. -/
inductive Anchored : Expr → Prop
  | nil : Anchored (.list [])
  | base (x : String) : Anchored (.list [.var x])
  | last (x : String) (ys : List String) :
      Anchored (.list (.var x :: .ellipsis :: ys.map .var))

theorem BindingList.ofItems_vars (names : List String) :
    ofItems true (names.map .var) = .ok { trailing := names.map nameUnlessWildcard } := by
  induction names with
  | nil => rfl
  | cons name rest ih =>
    rw [List.map_cons, ofItems, ih]
    rfl

/-- Only the first entry of an anchored list stands in front of the ellipsis. -/
theorem Anchored.exists_list {bindings : Expr} (h : Anchored bindings) :
    ∃ items l, bindings = .list items ∧ BindingList.ofItems false items = .ok l ∧
      l.leading.length ≤ 1 ∧ (l.trailing ≠ [] → l.leading.length = 1) ∧ l.named = [] := by
  cases h with
  | nil => exact ⟨[], {}, rfl, rfl, Nat.zero_le 1, fun hne => absurd rfl hne, rfl⟩
  | base x =>
    exact ⟨_, { leading := [nameUnlessWildcard x] }, rfl, rfl, Nat.le_refl 1, fun _ => rfl, rfl⟩
  | last x ys =>
    refine ⟨_, { leading := [nameUnlessWildcard x], trailing := ys.map nameUnlessWildcard }, rfl,
      ?_, Nat.le_refl 1, fun _ => rfl, rfl⟩
    simp only [BindingList.ofItems, BindingList.ofItems_vars]
    rfl

namespace Scope

/-- `s'` has the variables of `s` at moved slots, among `offset` more slots. -/
structure Moved (offset : Nat) (s s' : Scope) : Prop where
  slots_eq : s'.slots = s.slots + offset
  slot?_shift : ∀ name, s'.slot? name = (s.slot? name).map (shiftSlot offset)

variable {offset slot first : Nat} {s s' t : Scope} {name : String}

theorem moved_empty (offset slots : Nat) :
    Moved offset ⟨.empty, slots⟩ ⟨.empty, slots + offset⟩ :=
  ⟨rfl, fun _ => rfl⟩

/-! ## The binding list -/

theorem Moved.bind (h : s.Moved offset s') (ht : s.bind name slot = .ok t) :
    ∃ t', s'.bind name (shiftSlot offset slot) = .ok t' ∧ t.Moved offset t' := by
  obtain ⟨hfree, rfl⟩ := bind_eq_ok_iff.mp ht
  have hfree' : s'.slot? name = none := by
    rw [h.slot?_shift, hfree]
    rfl
  refine ⟨_, bind_eq_ok_iff.mpr ⟨hfree', rfl⟩, h.slots_eq, ?_⟩
  intro n
  simp only [slot?, OrderedMap.get?_insert]
  split
  · rfl
  · exact h.slot?_shift n

/-- Behind the base, every slot moves by the same number. -/
theorem Moved.bindFrom {names : List (Option String)} (h : s.Moved offset s') (hpos : 0 < first)
    (ht : s.bindFrom first names = .ok t) :
    ∃ t', s'.bindFrom (first + offset) names = .ok t' ∧ t.Moved offset t' := by
  induction names generalizing s s' first with
  | nil =>
    cases ht
    exact ⟨s', rfl, h⟩
  | cons n rest ih =>
    cases n with
    | none =>
      have hrest := ih h (Nat.succ_pos first) ht
      rw [Nat.succ_add] at hrest
      exact hrest
    | some name =>
      simp only [Scope.bindFrom] at ht ⊢
      split at ht
      · cases ht
      · rename_i u hu
        obtain ⟨u', hu', hmoved⟩ := h.bind hu
        rw [shiftSlot_of_pos hpos] at hu'
        have hrest := ih hmoved (Nat.succ_pos first) ht
        rw [Nat.succ_add] at hrest
        rw [hu']
        exact hrest

/-- A single entry names the base, which does not move. -/
theorem Moved.bindFrom_base {names : List (Option String)} (h : s.Moved offset s')
    (hone : names.length ≤ 1) (ht : s.bindFrom 0 names = .ok t) :
    ∃ t', s'.bindFrom 0 names = .ok t' ∧ t.Moved offset t' := by
  match names, hone with
  | [], _ =>
    cases ht
    exact ⟨s', rfl, h⟩
  | [none], _ =>
    cases ht
    exact ⟨s', rfl, h⟩
  | [some name], _ =>
    simp only [Scope.bindFrom] at ht ⊢
    split at ht
    · cases ht
    · rename_i u hu
      cases ht
      obtain ⟨u', hu', hmoved⟩ := h.bind hu
      rw [shiftSlot_zero] at hu'
      rw [hu']
      exact ⟨u', rfl, hmoved⟩

/-- An anchored list gives the same variables, moved, whatever the aliases are. -/
theorem resolve_anchored {bindings : Expr} (ha : Anchored bindings) {slots : Nat}
    {aliases : OrderedMap Nat} (h : resolve slots aliases bindings = .ok s) (offset : Nat)
    (aliases' : OrderedMap Nat) :
    ∃ s', resolve (slots + offset) aliases' bindings = .ok s' ∧ s.Moved offset s' := by
  obtain ⟨items, l, rfl, hl, hone, htrailing, hnamed⟩ := ha.exists_list
  obtain ⟨l', hl', h⟩ := resolve_list_eq_ok_iff.mp h
  rw [hl] at hl'
  cases hl'
  obtain ⟨hcount, u, v, hu, hv, hs⟩ := BindingList.resolve_eq_ok_iff.mp h
  rw [hnamed] at hs
  cases hs
  obtain ⟨u', hu', hmoved⟩ := (moved_empty offset slots).bindFrom_base hone hu
  have hv' : ∃ v', u'.bindFrom (slots + offset - l.trailing.length) l.trailing = .ok v' ∧
      s.Moved offset v' := by
    by_cases hempty : l.trailing = []
    · rw [hempty] at hv ⊢
      cases hv
      exact ⟨u', rfl, hmoved⟩
    · have hleading := htrailing hempty
      rw [BindingList.positionalCount] at hcount
      have hfirst : slots + offset - l.trailing.length = slots - l.trailing.length + offset := by
        omega
      rw [hfirst]
      exact hmoved.bindFrom (by omega) hv
  obtain ⟨v', hv', hmoved'⟩ := hv'
  refine ⟨v', resolve_list_eq_ok_iff.mpr ⟨l, hl, BindingList.resolve_eq_ok_iff.mpr
    ⟨Nat.le_trans hcount (Nat.le_add_right _ _), u', v', hu', hv', ?_⟩⟩, hmoved'⟩
  rw [hnamed]
  rfl

/-! ## The variables of the join -/

theorem Moved.contains_eq (h : s.Moved offset s') (name : String) :
    s'.names.contains name = s.names.contains name := by
  have hslot := h.slot?_shift name
  unfold slot? at hslot
  simp only [OrderedMap.contains_eq_isSome, hslot, Option.isSome_map]

theorem Moved.checkFresh_eq (h : s.Moved offset s') (vars : JoinVars) :
    s'.checkFresh vars = s.checkFresh vars := by
  have hcontains : s'.names.contains = s.names.contains := funext h.contains_eq
  unfold checkFresh
  rw [hcontains]

theorem get?_nameSlots_shift {names names' : OrderedMap Nat}
    (h : ∀ n, names'.get? n = (names.get? n).map (shiftSlot offset)) (hpos : 0 < first)
    (vars : List (Option String)) (n : String) :
    (nameSlots names' (first + offset) vars).get? n =
      ((nameSlots names first vars).get? n).map (shiftSlot offset) := by
  induction vars generalizing names names' first with
  | nil => exact h n
  | cons v rest ih =>
    cases v with
    | none =>
      have hrest := ih h (Nat.succ_pos first)
      rw [Nat.succ_add] at hrest
      exact hrest
    | some name =>
      have hinsert : ∀ m, (names'.insert name (first + offset)).get? m =
          ((names.insert name first).get? m).map (shiftSlot offset) := by
        intro m
        rw [OrderedMap.get?_insert, OrderedMap.get?_insert]
        split
        · rw [Option.map_some, shiftSlot_of_pos hpos]
        · exact h m
      have hrest := ih hinsert (Nat.succ_pos first)
      rw [Nat.succ_add] at hrest
      exact hrest

theorem Moved.extend (h : s.Moved offset s') (hpos : 0 < s.slots) {vars : JoinVars} {arity : Nat}
    (ht : s.extend vars arity = .ok t) :
    ∃ t', s'.extend vars arity = .ok t' ∧ t.Moved offset t' := by
  obtain ⟨u, hfresh, ht⟩ := bind_eq_ok.mp ht
  cases ht
  have hfresh' : s'.checkFresh vars = .ok u := by
    rw [h.checkFresh_eq]
    exact hfresh
  refine ⟨_, bind_eq_ok.mpr ⟨u, hfresh', rfl⟩, ?_, ?_⟩
  · simp only [h.slots_eq]
    omega
  · intro n
    simp only [slot?, h.slots_eq]
    exact get?_nameSlots_shift h.slot?_shift hpos vars.slots n

end Scope

end StagedJoin
