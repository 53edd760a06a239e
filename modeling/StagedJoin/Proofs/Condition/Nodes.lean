import StagedJoin.Expr

/-!
The nodes of an expression, and the first of them that is at fault. A walk over an
expression that stops where it fails is judged by the nodes in the order in which it
meets them: it passes when all of them do, and else it answers for the first that does not.
-/
namespace StagedJoin

/-! ## Nodes -/

namespace Expr

mutual

/-- The nodes of an expression from left to right, each before its parts. -/
def nodes : Expr → List Expr
  | .call function args => .call function args :: itemNodes args
  | .binary op left right => .binary op left right :: (left.nodes ++ right.nodes)
  | .not e => .not e :: e.nodes
  | .keyword pairs => .keyword pairs :: pairNodes pairs
  | .list items => .list items :: itemNodes items
  | .tuple items => .tuple items :: itemNodes items
  | .map pairs => .map pairs :: pairNodes pairs
  | e => [e]

def itemNodes : List Expr → List Expr
  | [] => []
  | e :: rest => e.nodes ++ itemNodes rest

def pairNodes : List (String × Expr) → List Expr
  | [] => []
  | (_, e) :: rest => e.nodes ++ pairNodes rest

end

/-- An expression is the first of its nodes. -/
theorem self_mem_nodes (e : Expr) : e ∈ e.nodes := by
  cases e <;> exact List.mem_cons_self

theorem mem_pairNodes {n : Expr} {pairs : List (String × Expr)} :
    n ∈ pairNodes pairs ↔ ∃ p ∈ pairs, n ∈ p.2.nodes := by
  induction pairs with
  | nil => simp [pairNodes]
  | cons p rest ih => simp [pairNodes, ih]

end Expr

/-! ## The first fault -/

variable {α β : Type} {Pass : α → Prop} {Fault : α → β → Prop} {a : α} {b b' : β}
  {items before after : List α} {outcome : Option β}

/-- One of the items is at fault, and those before it pass. -/
def FirstFault (Pass : α → Prop) (Fault : α → β → Prop) (items : List α) (b : β) : Prop :=
  ∃ before a after, items = before ++ a :: after ∧ (∀ x ∈ before, Pass x) ∧ Fault a b

/-- An outcome is the first fault among the items, if there is one. -/
def Judged (Pass : α → Prop) (Fault : α → β → Prop) (items : List α) : Option β → Prop
  | none => ∀ a ∈ items, Pass a
  | some b => FirstFault Pass Fault items b

/-- Items of which none passes and is at fault, or is at fault in two ways, have one first fault. -/
theorem FirstFault.unique (hpass : ∀ a b, Pass a → ¬ Fault a b)
    (hfault : ∀ a b b', Fault a b → Fault a b' → b = b')
    (h : FirstFault Pass Fault items b) (h' : FirstFault Pass Fault items b') : b = b' := by
  obtain ⟨before, a, after, rfl, hbefore, ha⟩ := h
  obtain ⟨before', a', after', heq, hbefore', ha'⟩ := h'
  -- neither of the two can stand among those before the other
  induction before generalizing before' with
  | nil =>
    cases before' with
    | nil =>
      obtain ⟨rfl, -⟩ := List.cons.inj heq
      exact hfault _ _ _ ha ha'
    | cons x rest =>
      obtain ⟨rfl, -⟩ := List.cons.inj heq
      exact absurd ha (hpass _ _ (hbefore' _ List.mem_cons_self))
  | cons x rest ih =>
    cases before' with
    | nil =>
      obtain ⟨rfl, -⟩ := List.cons.inj heq
      exact absurd ha' (hpass _ _ (hbefore _ List.mem_cons_self))
    | cons y rest' =>
      obtain ⟨rfl, htail⟩ := List.cons.inj heq
      exact ih (fun z hz => hbefore z (List.mem_cons_of_mem _ hz)) rest' htail
        fun z hz => hbefore' z (List.mem_cons_of_mem _ hz)

namespace Judged

theorem nil : Judged Pass Fault [] none := by simp [Judged]

theorem here (h : Fault a b) : Judged Pass Fault (a :: after) (some b) :=
  ⟨[], a, after, rfl, by simp, h⟩

/-- Behind items that pass the outcome is that of the rest. -/
theorem behind (hbefore : ∀ x ∈ before, Pass x) (h : Judged Pass Fault after outcome) :
    Judged Pass Fault (before ++ after) outcome := by
  cases outcome with
  | none =>
    intro x hx
    exact (List.mem_append.mp hx).elim (hbefore x) (h x)
  | some b =>
    obtain ⟨mid, a, rest, rfl, hmid, ha⟩ := h
    refine ⟨before ++ mid, a, rest, by simp, fun x hx => ?_, ha⟩
    exact (List.mem_append.mp hx).elim (hbefore x) (hmid x)

theorem cons (ha : Pass a) (h : Judged Pass Fault after outcome) :
    Judged Pass Fault (a :: after) outcome := by
  have hbefore : ∀ x ∈ [a], Pass x := fun x hx => List.mem_singleton.mp hx ▸ ha
  exact behind hbefore h

theorem single (ha : Pass a) : Judged Pass Fault [a] none := nil.cons ha

/-- What follows a fault does not matter. -/
theorem append_some (h : Judged Pass Fault before (some b)) :
    Judged Pass Fault (before ++ after) (some b) := by
  obtain ⟨front, a, rest, rfl, hfront, ha⟩ := h
  exact ⟨front, a, rest ++ after, by simp, hfront, ha⟩

/-- Where passing and the faults exclude one another, the outcome decides whether all pass. -/
theorem eq_none_iff (hpass : ∀ a b, Pass a → ¬ Fault a b)
    (h : Judged Pass Fault items outcome) : outcome = none ↔ ∀ a ∈ items, Pass a := by
  cases outcome with
  | none => exact ⟨fun _ => h, fun _ => rfl⟩
  | some b =>
    refine ⟨nofun, fun hall => ?_⟩
    obtain ⟨before, a, after, rfl, -, ha⟩ := h
    exact absurd ha (hpass a b (hall a (List.mem_append_right _ List.mem_cons_self)))

theorem eq_some_iff (hpass : ∀ a b, Pass a → ¬ Fault a b)
    (hfault : ∀ a b b', Fault a b → Fault a b' → b = b')
    (h : Judged Pass Fault items outcome) :
    outcome = some b ↔ FirstFault Pass Fault items b := by
  constructor
  · rintro rfl
    exact h
  · intro hb
    cases outcome with
    | none =>
      obtain ⟨before, a, after, rfl, -, ha⟩ := hb
      exact absurd ha (hpass a b (h a (List.mem_append_right _ List.mem_cons_self)))
    | some b' => rw [h.unique hpass hfault hb]

end Judged

/-- The failure of a step, if it fails. -/
def failure? {ε α : Type} : Except ε α → Option ε
  | .ok _ => none
  | .error e => some e

theorem failure?_eq_none {ε α : Type} {x : Except ε α} : failure? x = none ↔ ∃ a, x = .ok a := by
  cases x <;> simp [failure?]

theorem failure?_eq_some {ε α : Type} {x : Except ε α} {e : ε} :
    failure? x = some e ↔ x = .error e := by
  cases x <;> simp [failure?]

end StagedJoin
