import StagedJoin.Compiler
import StagedJoin.Proofs.Outcome

/-!
Failures that the input brings about, as opposed to breaks of the slot layout. A step
is orderly if it fails only with the former; where it succeeds, its result is known to
have a property. Orderly steps in a row are an orderly step.
-/
namespace StagedJoin

/-- Neither a break of the slot layout nor handed on from another compiler of conditions. -/
def Failure.Ordinary : Failure → Prop
  | .layout _ => False
  | .reported _ => False
  | _ => True

theorem Failure.Ordinary.code_ne {f : Failure} (h : f.Ordinary) :
    f.code ≠ Diagnostic.internalCode := by
  cases f with
  | layout fault => exact h.elim
  | reported d => exact h.elim
  | expression fault site =>
    cases fault <;> simp [code, diagnostic, ExpressionFault.wording, Wording.diagnostic,
      Diagnostic.code, Diagnostic.internalCode]
  | _ => simp [code, diagnostic, Wording.diagnostic, ConfigFault.diagnostic, Diagnostic.code,
      Diagnostic.internalCode]

/-- A step that fails only in ordinary ways and whose result, if there is one, has a property. -/
def Orderly {α : Type} (x : Except Failure α) (post : α → Prop := fun _ => True) : Prop :=
  match x with
  | .ok a => post a
  | .error f => f.Ordinary

namespace Orderly

variable {α β : Type} {x : Except Failure α} {P Q : α → Prop}

theorem ordinary (h : Orderly x P) {f : Failure} (hf : x = .error f) : f.Ordinary := by
  subst hf
  exact h

theorem post (h : Orderly x P) {a : α} (ha : x = .ok a) : P a := by
  subst ha
  exact h

theorem imp (h : Orderly x P) (hpq : ∀ a, x = .ok a → P a → Q a) : Orderly x Q := by
  cases x with
  | ok a => exact hpq a rfl h
  | error f => exact h

theorem bind {f : α → Except Failure β} {R : β → Prop} (h : Orderly x P)
    (hf : ∀ a, x = .ok a → P a → Orderly (f a) R) : Orderly (x >>= f) R := by
  cases x with
  | ok a => exact hf a rfl h
  | error e => exact h

theorem mapM {f : β → Except Failure α} {items : List β} (h : ∀ b ∈ items, Orderly (f b) P) :
    Orderly (items.mapM f) := by
  induction items with
  | nil => trivial
  | cons b rest ih =>
    rw [List.mapM_cons]
    refine (h b List.mem_cons_self).bind fun a _ _ => ?_
    exact (ih fun c hc => h c (List.mem_cons_of_mem _ hc)).bind fun as _ _ => trivial

end Orderly

end StagedJoin
