import StagedJoin.Proofs.Condition.Compilation
import StagedJoin.Proofs.Condition.Meaning
import StagedJoin.Proofs.Outcome

/-!
The standard compiler preserves meaning. A compiled term numbers its parameters from
left to right, on from those collected before; with the values of the placeholders in
that order it means what the expression means. A keyword list is compiled equation by
equation behind those before it.
-/
namespace StagedJoin

universe u v

variable {Row : Type u} {D : Type v}

/-! ## Parameters and their values -/

/-- The value itself or the one that its placeholder has. -/
def Staged.value? (value? : Placeholder → Option Value) : Staged Value → Option Value
  | .literal v => some v
  | .deferred p => value? p

/-- From number `count` on, the values are those of the parameters. -/
def Supplies (value? : Placeholder → Option Value) (values : List Value) (count : Nat)
    (params : List Param) : Prop :=
  ∀ (k : Nat) p, params[k]? = some p → ∃ v, p.value.value? value? = some v ∧
    values[count + k]? = some v

theorem supplies_append {value? : Placeholder → Option Value} {values : List Value} {count : Nat}
    {ps qs : List Param} (h : Supplies value? values count (ps ++ qs)) :
    Supplies value? values count ps ∧ Supplies value? values (count + ps.length) qs := by
  constructor
  · intro k p hp
    apply h k p
    rw [List.getElem?_append_left (List.getElem?_eq_some_iff.mp hp).1]
    exact hp
  · intro k p hp
    rw [Nat.add_assoc]
    apply h (ps.length + k) p
    rw [List.getElem?_append_right (Nat.le_add_right _ _), Nat.add_sub_cancel_left]
    exact hp

/-- The parameters of what is compiled are numbered from `count` on, and with their values it means
`d?`, which is a meaning. -/
def Compiled.Means (I : Interpretation Row D) (s : Setting Row) (count : Nat) (r : Compiled)
    (d? : Option D) : Prop :=
  r.1.paramIndices = List.range' count r.2.length ∧
    ∀ values, Supplies s.value? values count r.2 →
      ∃ d, d? = some d ∧ r.1.meaning? I s.rows values = some d

/-- The same for a list of items. -/
def Compiled.ItemsMean (I : Interpretation Row D) (s : Setting Row) (count : Nat)
    (r : List Term × List Param) (ds? : Option (List D)) : Prop :=
  Term.itemParamIndices r.1 = List.range' count r.2.length ∧
    ∀ values, Supplies s.value? values count r.2 →
      ∃ ds, ds? = some ds ∧ Term.itemMeanings? I s.rows values r.1 = some ds

namespace Compiled

variable {I : Interpretation Row D} {s : Setting Row} {count : Nat}

theorem means_param (p : Placeholder) (tag : TypeTag) :
    Means I s count (.param count, [⟨.deferred p, tag⟩]) ((s.value? p).map I.value) := by
  refine ⟨rfl, fun values h => ?_⟩
  obtain ⟨v, hp, hv⟩ := h 0 _ rfl
  have hvalue : s.value? p = some v := hp
  exact ⟨I.value v, by rw [hvalue]; rfl, by rw [Term.meaning?, ← Nat.add_zero count, hv]; rfl⟩

/-- What has no parameters means the same with any values. -/
theorem means_of_closed {t : Term} {d : D} (hp : t.paramIndices = [])
    (h : ∀ values, t.meaning? I s.rows values = some d) : Means I s count (t, []) (some d) :=
  ⟨hp, fun values _ => ⟨d, rfl, h values⟩⟩

theorem Means.unary {t : Term} {ps : List Param} {d? : Option D} {f : Term → Term} {g : D → D}
    (h : Means I s count (t, ps) d?) (hp : (f t).paramIndices = t.paramIndices)
    (hf : ∀ values, (f t).meaning? I s.rows values = (t.meaning? I s.rows values).map g) :
    Means I s count (f t, ps) (d?.map g) := by
  refine ⟨hp.trans h.1, fun values hv => ?_⟩
  obtain ⟨d, rfl, hd⟩ := h.2 values hv
  exact ⟨g d, rfl, by rw [hf, hd]; rfl⟩

theorem Means.binary {l r : Compiled} {d? e? : Option D} (hl : l.Means I s count d?)
    (hr : r.Means I s (count + l.2.length) e?) (op : Operator) :
    Means I s count (.binary op l.1 r.1, l.2 ++ r.2) (I.binary? op d? e?) := by
  refine ⟨?_, fun values hv => ?_⟩
  · rw [Term.paramIndices, hl.1, hr.1, List.length_append, List.range'_append_1]
  · obtain ⟨hvl, hvr⟩ := supplies_append hv
    obtain ⟨d, rfl, hd⟩ := hl.2 values hvl
    obtain ⟨e, rfl, he⟩ := hr.2 values hvr
    exact ⟨I.binary op d e, rfl, by rw [Term.meaning?, hd, he]; rfl⟩

theorem ItemsMean.cons {t : Compiled} {r : List Term × List Param} {d? : Option D}
    {ds? : Option (List D)} (ht : t.Means I s count d?)
    (hr : ItemsMean I s (count + t.2.length) r ds?) :
    ItemsMean I s count (t.1 :: r.1, t.2 ++ r.2) (d?.bind fun d => ds?.map (d :: ·)) := by
  refine ⟨?_, fun values hv => ?_⟩
  · rw [Term.itemParamIndices, ht.1, hr.1, List.length_append, List.range'_append_1]
  · obtain ⟨hvt, hvr⟩ := supplies_append hv
    obtain ⟨d, rfl, hd⟩ := ht.2 values hvt
    obtain ⟨ds, rfl, hds⟩ := hr.2 values hvr
    exact ⟨d :: ds, rfl, by rw [Term.itemMeanings?, hd, hds]; rfl⟩

theorem ItemsMean.list {r : List Term × List Param} {ds? : Option (List D)}
    (h : ItemsMean I s count r ds?) : Means I s count (.list r.1, r.2) (ds?.map I.list) := by
  refine ⟨h.1, fun values hv => ?_⟩
  obtain ⟨ds, rfl, hds⟩ := h.2 values hv
  exact ⟨I.list ds, rfl, by rw [Term.meaning?, hds]; rfl⟩

end Compiled

/-! ## The standard compiler -/

namespace ConditionCompiler

variable {I : Interpretation Row D} {s : Setting Row} {ctx : Context}

mutual

theorem means_of_compiles (hs : ∀ name, ctx.scope.slot? name = s.slot? name) {count : Nat}
    {hint : TypeTag} {e : Expr} {t : Term} {ps : List Param} (h : Compiles ctx count hint e t ps) :
    Compiled.Means I s count (t, ps) (e.meaning? I s) := by
  cases h with
  | literal l => exact Compiled.means_of_closed rfl fun _ => rfl
  | atom name => exact Compiled.means_of_closed rfl fun _ => rfl
  | field name hslot =>
    rw [Expr.meaning?, ← hs, hslot]
    exact Compiled.means_of_closed rfl fun _ => rfl
  | interpolate p => exact Compiled.means_param p hint
  | binary op hleft hright =>
    exact (means_of_compiles hs hleft).binary (means_of_compiles hs hright) op
  | not he => exact (means_of_compiles hs he).unary rfl fun _ => rfl
  | list hitems => exact (itemsMean_of_compilesItems hs hitems).list
  | isNil he => exact (means_of_compiles hs he).unary rfl fun _ => rfl
  | typedParam p => exact Compiled.means_param p _
  | typed hnamed hne he =>
    have hmeans := means_of_compiles hs he
    exact hmeans

theorem itemsMean_of_compilesItems (hs : ∀ name, ctx.scope.slot? name = s.slot? name) {count : Nat}
    {hint : TypeTag} {items : List Expr} {ts : List Term} {ps : List Param}
    (h : CompilesItems ctx count hint items ts ps) :
    Compiled.ItemsMean I s count (ts, ps) (Expr.itemMeanings? I s items) := by
  cases h with
  | nil => exact ⟨rfl, fun _ _ => ⟨[], rfl, rfl⟩⟩
  | cons he hrest => exact .cons (means_of_compiles hs he) (itemsMean_of_compilesItems hs hrest)

end

end ConditionCompiler

/-! ## The `on` option -/

namespace Condition

variable {I : Interpretation Row D} {s : Setting Row} {ctx : Context}

/-- All parameters of a condition are its own. -/
def Means (I : Interpretation Row D) (s : Setting Row) (c : Condition) (d? : Option D) : Prop :=
  Compiled.Means I s 0 (c.term, c.params) d?

theorem means_truth : truth.Means I s (some I.truth) := Compiled.means_of_closed rfl fun _ => rfl

/-- The value of an equation means what is written, a boolean with its tag included. -/
theorem means_of_keywordValue (hs : ∀ name, ctx.scope.slot? name = s.slot? name)
    {slot count : Nat} {name : String} {e : Expr} {r : Compiled}
    (h : keywordValue .standard ctx slot count name e = .ok r) :
    r.Means I s count (e.meaning? I s) := by
  unfold keywordValue at h
  split at h
  · cases h
    exact Compiled.means_of_closed rfl fun _ => rfl
  · cases h
    exact Compiled.means_param _ _
  · obtain ⟨-, -, h⟩ := bind_eq_ok.mp h
    exact ConditionCompiler.means_of_compiles hs (ConditionCompiler.standard_eq_ok_iff.mp h)

/-- An equation behind a conjunction that has all parameters collected so far. -/
theorem Means.addEquation {before : Conjunction} {d? : Option D}
    (hb : before.condition.Means I s d?) (hp : before.condition.params = before.params)
    {value : Compiled} {e? : Option D} (hv : value.Means I s before.params.length e?)
    (slot : Nat) (name : String) :
    (before.addEquation slot name value).condition.Means I s
      (I.binary? .and d? (I.equation? (s.rows slot) name e?)) := by
  have hfield : Compiled.Means I s before.params.length (.field slot name, [])
      (some (I.field (s.rows slot) name)) := Compiled.means_of_closed rfl fun _ => rfl
  have hequation := hfield.binary hv .eq
  obtain ⟨term, params⟩ := before
  cases term with
  | none =>
    cases hp
    obtain ⟨d, rfl, hd⟩ := hb.2 [] fun k p h => nomatch h
    cases hd
    have hneutral := I.truth_and? (I.equation? (s.rows slot) name e?)
    exact (congrArg (Compiled.Means I s 0 _) hneutral).mpr hequation
  | some t =>
    have hright : Compiled.Means I s (0 + params.length) (.eq (.field slot name) value.1, value.2)
        (I.equation? (s.rows slot) name e?) := by
      rw [Nat.zero_add]
      exact hequation
    exact Compiled.Means.binary hb hright .and

theorem means_of_keywordConjunction (hs : ∀ name, ctx.scope.slot? name = s.slot? name) {slot : Nat}
    {pairs : List (String × Expr)} {before after : Conjunction} {d? : Option D}
    (hb : before.condition.Means I s d?) (hp : before.condition.params = before.params)
    (h : keywordConjunction .standard ctx slot before pairs = .ok after) :
    after.condition.Means I s (pairs.foldl (fun before p =>
      I.binary? .and before (I.equation? (s.rows slot) p.1 (p.2.meaning? I s))) d?) := by
  induction pairs generalizing before d? with
  | nil =>
    cases h
    exact hb
  | cons p rest ih =>
    obtain ⟨name, e⟩ := p
    rw [keywordConjunction] at h
    split at h
    · cases h
    · rename_i value hvalue
      have hv := means_of_keywordValue (I := I) hs hvalue
      exact ih (hb.addEquation hp hv slot name) rfl h

end Condition

/-- A clause that is written out is compiled to a condition of the same meaning. -/
theorem OnClause.means_of_ofExpr? {I : Interpretation Row D} {s : Setting Row} {ctx : Context}
    (hs : ∀ name, ctx.scope.slot? name = s.slot? name) {slot : Nat} {on : Option Expr}
    (hstatic : ∀ p, on ≠ some (.interpolate p)) {clause : OnClause}
    (h : ofExpr? .standard ctx slot on = .ok clause) :
    ∃ c, clause = .compiled c ∧ c.Means I s (Expr.onMeaning? I s slot on) := by
  unfold ofExpr? at h
  split at h
  · cases h
    exact ⟨_, rfl, Condition.means_truth⟩
  · exact absurd rfl (hstatic _)
  · obtain ⟨c, hc, h⟩ := bind_eq_ok.mp h
    cases h
    obtain ⟨after, hafter, hc⟩ := bind_eq_ok.mp hc
    cases hc
    exact ⟨_, rfl, Condition.means_of_keywordConjunction hs Condition.means_truth rfl hafter⟩
  · cases h
    exact ⟨_, rfl, Condition.means_truth⟩
  · cases h
  · rename_i e _ hkeyword hnil _
    obtain ⟨c, hc, h⟩ := bind_eq_ok.mp h
    cases h
    obtain ⟨-, -, hc⟩ := bind_eq_ok.mp hc
    obtain ⟨⟨term, params⟩, hterm, hc⟩ := bind_eq_ok.mp hc
    cases hc
    have hmeaning : Expr.onMeaning? I s slot (some e) = e.meaning? I s := by
      unfold Expr.onMeaning?
      split <;> simp_all
    rw [hmeaning]
    exact ⟨_, rfl, ConditionCompiler.means_of_compiles hs
      (ConditionCompiler.standard_eq_ok_iff.mp hterm)⟩

end StagedJoin
