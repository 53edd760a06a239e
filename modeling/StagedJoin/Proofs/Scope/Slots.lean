import StagedJoin.Proofs.Condition.Shift
import StagedJoin.Proofs.OrderedMap
import StagedJoin.Proofs.Outcome
import StagedJoin.Scope

/-!
The slots that a binding list gives to variables. A variable names a slot that is in
view. Other aliases never change what a list that resolves says, as long as they keep
the names of the slots in view. A list whose entries behind the ellipsis stay clear of
the base resolves against more slots to the same variables at slots moved up by the
difference.
-/
namespace StagedJoin

namespace Scope

variable {s t : Scope} {name : String} {slot first offset : Nat}

theorem bind_eq_ok_iff : s.bind name slot = .ok t ↔
    s.slot? name = none ∧ t = { s with names := s.names.insert name slot } := by
  unfold bind slot?
  cases h : s.names.get? name <;> simp [h, eq_comm]

theorem slot?_of_bind (h : s.bind name slot = .ok t) (n : String) :
    t.slot? n = if n = name then some slot else s.slot? n := by
  obtain ⟨-, rfl⟩ := bind_eq_ok_iff.mp h
  exact OrderedMap.get?_insert s.names name n slot

/-! ## Variables name slots in view -/

def InView (s : Scope) : Prop := ∀ name slot, s.slot? name = some slot → slot < s.slots

theorem inView_empty (slots : Nat) : InView ⟨.empty, slots⟩ := by
  intro name slot h
  cases h

theorem InView.bind (hs : s.InView) (hslot : slot < s.slots) (h : s.bind name slot = .ok t) :
    t.InView ∧ t.slots = s.slots := by
  have ht : t.slots = s.slots := by rw [(bind_eq_ok_iff.mp h).2]
  refine ⟨fun n k hk => ?_, ht⟩
  rw [slot?_of_bind h] at hk
  rw [ht]
  split at hk
  · cases hk
    exact hslot
  · exact hs n k hk

theorem InView.bindFrom {names : List (Option String)} (hs : s.InView)
    (hn : first + names.length ≤ s.slots) (h : s.bindFrom first names = .ok t) :
    t.InView ∧ t.slots = s.slots := by
  induction names generalizing s first with
  | nil => cases h; exact ⟨hs, rfl⟩
  | cons n rest ih =>
    rw [List.length_cons] at hn
    cases n with
    | none => exact ih hs (by omega) h
    | some name =>
      simp only [Scope.bindFrom] at h
      split at h
      · cases h
      · rename_i u hu
        obtain ⟨hv, hslots⟩ := hs.bind (by omega) hu
        rw [← hslots]
        exact ih hv (by omega) h

theorem InView.bindNamed {aliases : OrderedMap Nat} {named : List (String × String)}
    (hs : s.InView) (h : s.bindNamed aliases named = .ok t) : t.InView ∧ t.slots = s.slots := by
  induction named generalizing s with
  | nil => cases h; exact ⟨hs, rfl⟩
  | cons e rest ih =>
    obtain ⟨aliasName, name⟩ := e
    simp only [Scope.bindNamed] at h
    split at h
    · cases h
    · rename_i slot hslot
      have hlt : slot < s.slots := by simpa using (Option.filter_eq_some_iff.mp hslot).2
      split at h
      · cases h
      · rename_i u hu
        obtain ⟨hv, hslots⟩ := hs.bind hlt hu
        rw [← hslots]
        exact ih hv h

theorem resolve_list_eq_ok_iff {slots : Nat} {aliases : OrderedMap Nat} {items : List Expr} :
    resolve slots aliases (.list items) = .ok s ↔
      ∃ l, BindingList.ofItems false items = .ok l ∧ l.resolve slots aliases = .ok s := by
  simp only [resolve, mapError_eq_ok, ofItems, bind_eq_ok]

end Scope

theorem BindingList.resolve_eq_ok_iff {l : BindingList} {slots : Nat} {aliases : OrderedMap Nat}
    {s : Scope} : l.resolve slots aliases = .ok s ↔
      l.positionalCount ≤ slots ∧ ∃ u v, Scope.bindFrom ⟨.empty, slots⟩ 0 l.leading = .ok u ∧
        u.bindFrom (slots - l.trailing.length) l.trailing = .ok v ∧
        v.bindNamed aliases l.named = .ok s := by
  unfold BindingList.resolve
  by_cases h : slots < l.positionalCount
  · simp [h, Nat.not_le.mpr h]
  · simp only [h, ↓reduceIte, bind_eq_ok]
    simp [Nat.not_lt.mp h]

/-- The variables of a binding list name slots of the query. -/
theorem Scope.inView_of_resolve {slots : Nat} {aliases : OrderedMap Nat} {bindings : Expr}
    {s : Scope} (h : resolve slots aliases bindings = .ok s) : s.InView ∧ s.slots = slots := by
  cases bindings
  case list items =>
    obtain ⟨l, -, h⟩ := resolve_list_eq_ok_iff.mp h
    obtain ⟨hc, u, v, hu, hv, hs⟩ := BindingList.resolve_eq_ok_iff.mp h
    rw [BindingList.positionalCount] at hc
    obtain ⟨iu, eu⟩ := (inView_empty slots).bindFrom (by simp only; omega) hu
    obtain ⟨iv, ev⟩ := iu.bindFrom (by rw [eu]; simp only; omega) hv
    obtain ⟨is, es⟩ := iv.bindNamed hs
    exact ⟨is, by rw [es, ev, eu]⟩
  all_goals simp [resolve] at h

/-! ## Other aliases -/

/-- Every name of a slot before `bound` names that slot again. -/
def KeepsBelow (bound : Nat) (aliases' aliases : OrderedMap Nat) : Prop :=
  ∀ name slot, slot < bound → aliases.get? name = some slot → aliases'.get? name = some slot

theorem OrderedMap.Extends.keepsBelow {aliases aliases' : OrderedMap Nat}
    (h : aliases'.Extends aliases) (bound : Nat) : KeepsBelow bound aliases' aliases :=
  fun name slot _ hslot => h name slot hslot

theorem KeepsBelow.mono {aliases aliases' : OrderedMap Nat} {m n : Nat}
    (h : KeepsBelow n aliases' aliases) (hmn : m ≤ n) : KeepsBelow m aliases' aliases :=
  fun name slot hslot => h name slot (Nat.lt_of_lt_of_le hslot hmn)

namespace Scope

variable {s t : Scope} {aliases aliases' : OrderedMap Nat}

theorem bindNamed_of_keepsBelow {bound : Nat} (ha : KeepsBelow bound aliases' aliases)
    (hs : s.slots ≤ bound) {named : List (String × String)}
    (h : s.bindNamed aliases named = .ok t) : s.bindNamed aliases' named = .ok t := by
  induction named generalizing s with
  | nil => exact h
  | cons e rest ih =>
    obtain ⟨aliasName, name⟩ := e
    simp only [bindNamed] at h ⊢
    split at h
    · cases h
    · rename_i slot hslot
      obtain ⟨hget, hlt⟩ := Option.filter_eq_some_iff.mp hslot
      have hbound : slot < bound := Nat.lt_of_lt_of_le (by simpa using hlt) hs
      have hget' : aliases'.get? aliasName = some slot := ha aliasName slot hbound hget
      have hslot' : (aliases'.get? aliasName).filter (· < s.slots) = some slot :=
        Option.filter_eq_some_iff.mpr ⟨hget', hlt⟩
      rw [hslot']
      dsimp only
      split at h
      · cases h
      · rename_i u hu
        have hslots : u.slots = s.slots := by rw [(bind_eq_ok_iff.mp hu).2]
        exact ih (hslots ▸ hs) h

/-- Other aliases that keep the names of the slots in view do not change a binding list that
resolves. -/
theorem resolve_of_keepsBelow {slots : Nat} (ha : KeepsBelow slots aliases' aliases)
    {bindings : Expr} (h : resolve slots aliases bindings = .ok s) :
    resolve slots aliases' bindings = .ok s := by
  cases bindings
  case list items =>
    obtain ⟨l, hl, h⟩ := resolve_list_eq_ok_iff.mp h
    obtain ⟨hc, u, v, hu, hv, hs⟩ := BindingList.resolve_eq_ok_iff.mp h
    rw [BindingList.positionalCount] at hc
    obtain ⟨iu, eu⟩ := (inView_empty slots).bindFrom (by simp only; omega) hu
    obtain ⟨-, ev⟩ := iu.bindFrom (by rw [eu]; simp only; omega) hv
    have hnamed := bindNamed_of_keepsBelow ha (Nat.le_of_eq (ev.trans eu)) hs
    exact resolve_list_eq_ok_iff.mpr
      ⟨l, hl, BindingList.resolve_eq_ok_iff.mpr ⟨hc, u, v, hu, hv, hnamed⟩⟩
  all_goals simp [resolve] at h

end Scope

end StagedJoin
