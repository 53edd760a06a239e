import StagedJoin.Proofs.Bound.Natural
import StagedJoin.Proofs.Bound.Typing
import StagedJoin.Proofs.Condition.Preservation
import StagedJoin.Proofs.Scope.Variables

/-!
A clause that is written out keeps its meaning until it is bound. Building a join
compiles it, absorptions move it, binding resolves its tags and puts the values of its
parameters in order; the bound condition then means what is written, behind the
condition of the association where the join has one.
-/
namespace StagedJoin

universe u v

variable {Row : Type u} {D : Type v} {I : Interpretation Row D} {rows : Nat → Row}

/-- The reading that tells nothing apart. -/
def Interpretation.unit : Interpretation Unit Unit where
  value _ := ()
  field _ _ := ()
  binary _ _ _ := ()
  not _ := ()
  isNil _ := ()
  list _ := ()
  true_and _ := rfl
  and_true _ := rfl

/-- The value that is supplied for a placeholder. -/
def Arguments.value? (args : Arguments) (p : Placeholder) : Option Value :=
  match args.get? p with
  | some (.value v) => some v
  | _ => Option.none

/-- What the clause of an invocation on `q` is read with: the variables of the binding list name
slots of the query, those of the join the slots behind them. -/
def Query.setting (q : Query) (scope : Scope) (vars : JoinVars) (args : Arguments)
    (rows : Nat → Row) : Setting Row where
  rows := rows
  slot? name := (scope.slot? name).or (vars.slot? q.slotCount name)
  value? := args.value?

/-- In front of `d`, the rows of an association meet; other sources ask nothing of their rows. -/
def BoundSource.meaningBehind (I : Interpretation Row D) (rows : Nat → Row) (slot : Nat) (d : D) :
    BoundSource → D
  | .association owner r =>
    I.binary .and
      (I.binary .eq (I.field (rows slot) r.relatedKey) (I.field (rows owner) r.ownerKey)) d
  | _ => d

namespace BoundCondition

/-- The meaning of a bound condition, with its own values for its parameters. -/
def meaning? (I : Interpretation Row D) (rows : Nat → Row) (c : BoundCondition) : Option D :=
  c.term.meaning? I rows (c.params.map Prod.fst)

theorem eq_truth_of_isTruth {c : BoundCondition} (h : c.isTruth = true) : c = ⟨.truth, []⟩ := by
  obtain ⟨term, params⟩ := c
  simp only [isTruth, Bool.and_eq_true, List.isEmpty_iff] at h
  rw [h.1, Term.eq_truth_of_isTrue h.2]

/-- The parameters of a condition are numbered from left to right, none of them twice. -/
def Numbered (c : BoundCondition) : Prop := c.term.paramIndices = List.range c.params.length

theorem Numbered.behind {c : BoundCondition} (h : c.Numbered) (source : BoundSource) (slot : Nat) :
    (c.behind (source.natural? slot)).Numbered := by
  cases source with
  | association owner r =>
    unfold BoundCondition.behind BoundSource.natural?
    dsimp only
    split
    · rfl
    · exact h
  | _ => exact h

/-- A condition behind that of an association means both; the literal `true` behind it means
nothing more. -/
theorem meaning?_behind {c : BoundCondition} {d : D} (h : c.meaning? I rows = some d)
    (source : BoundSource) (slot : Nat) :
    (c.behind (source.natural? slot)).meaning? I rows =
      some (source.meaningBehind I rows slot d) := by
  cases source with
  | association owner r =>
    unfold BoundCondition.behind BoundSource.natural? BoundSource.meaningBehind
    dsimp only
    split
    · rename_i htruth
      cases eq_truth_of_isTruth htruth
      cases h
      rw [I.and_true]
      rfl
    · unfold meaning? at h ⊢
      rw [Term.meaning?, h]
      rfl
  | _ => exact h

end BoundCondition

namespace Binder

variable {b : Binder} {slots slots' : BoundSlots} {j : Join}
  {inner : Query → Except Failure BoundQuery}

theorem value?_of_plainValue {args : Arguments} {tag : TypeTag} {value : Staged Value} {v : Value}
    (h : plainValue args tag value = .ok v) : value.value? args.value? = some v := by
  rcases plainValue_eq_ok_iff.mp h with rfl | ⟨p, rfl, hp⟩
  · rfl
  · simp only [Staged.value?, Arguments.value?, hp]

/-- Parameters are bound to the values that are supplied for them, in order. -/
theorem supplies_of_mapM {ctx : Context} {args : Arguments} {params : List Param}
    {bound : List (Value × TypeTag)} (h : params.mapM (bindParam ctx args) = .ok bound) :
    Supplies args.value? (bound.map Prod.fst) 0 params := by
  have hlength := (mapM_eq_ok_iff.mp h).length_eq
  intro k p hp
  obtain ⟨hk, rfl⟩ := List.getElem?_eq_some_iff.mp hp
  have hk' : k < bound.length := by omega
  have hbind : bindParam ctx args params[k] = .ok bound[k] :=
    (mapM_eq_ok_iff.mp h).get hk hk'
  obtain ⟨hvalue, -⟩ := bindParam_eq_ok_iff.mp hbind
  refine ⟨bound[k].1, value?_of_plainValue (paramValue_eq_ok_iff.mp hvalue).1, ?_⟩
  rw [Nat.zero_add, List.getElem?_map, List.getElem?_eq_getElem hk']
  rfl

/-- A condition that has been moved is bound to one that means the same in the rows of the moved
slots. -/
theorem Settles.meaning {s : Setting Row} {last offset : Nat} {args : Arguments} {c : Condition}
    {on : BoundCondition} {d? : Option D} (hc : c.Means I s d?) (hvalue : s.value? = args.value?)
    (hrows : s.rows = rows ∘ shiftSlot offset) (h : b.Settles slots last args (c.shift offset) on) :
    on.Numbered ∧ ∃ d, d? = some d ∧ on.meaning? I rows = some d := by
  obtain ⟨-, params, hparams, rfl⟩ := h
  obtain ⟨hindices, hmeaning⟩ := hc
  have hlength : params.length = c.params.length := by
    rw [← (mapM_eq_ok_iff.mp hparams).length_eq]
    exact List.length_map _
  constructor
  · rw [BoundCondition.Numbered, Term.paramIndices_mapTags, hlength, List.range_eq_range',
      ← hindices]
    exact c.term.paramIndices_shift offset
  · have hsupplies : Supplies s.value? (params.map Prod.fst) 0 c.params := by
      rw [hvalue]
      intro k p hp
      apply supplies_of_mapM hparams k (p.shift offset)
      simp only [Condition.shift, List.getElem?_map, hp, Option.map_some]
    obtain ⟨d, hd, hterm⟩ := hmeaning _ hsupplies
    refine ⟨d, hd, ?_⟩
    rw [hrows] at hterm
    rw [BoundCondition.meaning?, Term.meaning?_mapTags]
    exact (c.term.meaning?_shift offset).trans hterm

theorem length_of_bindJoins {js : List Join} {bounds : List BoundJoin}
    (h : b.bindJoins inner slots js = .ok (bounds, slots')) : bounds.length = js.length := by
  induction js generalizing slots bounds with
  | nil =>
    cases h
    rfl
  | cons j rest ih =>
    obtain ⟨bound, t, -, more, hmore, rfl⟩ := bindJoins_cons_eq_ok_iff.mp h
    rw [List.length_cons, List.length_cons, ih hmore]

end Binder

/-- What the clause of an invocation is compiled in finds every variable where its setting has
it. -/
theorem Compiler.Parts.slot?_setting {c : Compiler} {q : Query} {i : Invocation} (p : c.Parts q i)
    (args : Arguments) (rows : Nat → Row) (name : String) :
    p.joined.slot? name = (q.setting p.scope p.vars args rows).slot? name := by
  have hslots : p.scope.slots = q.slotCount := (Scope.inView_of_resolve p.scope_eq).2
  rw [Scope.slot?_of_extend (JoinVars.nodup_names_of_splitTarget p.target_eq) p.joined_eq, hslots]
  rfl

/-- The join of an invocation with a clause that is written out, wherever it has moved, is bound to
a condition that means what is written, behind that of its association. -/
theorem Binder.Parts.meaning {b : Binder} {slots : BoundSlots} {j : Join}
    {inner : Query → Except Failure BoundQuery} (p : b.Parts inner slots j) {c : Compiler}
    {q : Query} {i : Invocation} {offset : Nat} (origin : c.Parts q i)
    (hstandard : c.conditions = .standard)
    (hstatic : ∀ p, origin.options.on? ≠ some (.interpolate p))
    (hmove : origin.join.MovesTo offset j) (I : Interpretation Row D) (rows : Nat → Row) :
    p.on.Numbered ∧ ∃ d,
      Expr.onMeaning? I
        (q.setting origin.scope origin.vars b.arguments (rows ∘ shiftSlot offset)) q.slotCount
        origin.options.on? = some d ∧
      p.on.meaning? I rows = some (p.found.source.meaningBehind I rows j.slot d) := by
  obtain ⟨written, hwritten, -⟩ := Compiler.onClause_eq_ok_iff.mp origin.on_eq
  obtain ⟨user, huser, hon⟩ := p.exists_user (.intro origin hwritten hmove)
  obtain ⟨condition, args, hcondition, hsettles⟩ := bindOn_eq_ok_iff_settles.mp huser
  rw [hstandard] at hwritten
  obtain ⟨compiled, rfl, hmeans⟩ := OnClause.means_of_ofExpr? (I := I)
    (origin.slot?_setting b.arguments (rows ∘ shiftSlot offset)) hstatic hwritten
  cases hcondition
  obtain ⟨hnumbered, d, hd, hmeaning⟩ := hsettles.meaning hmeans rfl rfl
  rw [hon]
  exact ⟨hnumbered.behind _ _, d, hd, BoundCondition.meaning?_behind hmeaning _ _⟩

/-- A clause that is written out, compiled by the standard compiler, moved and bound, means what is
written: in any rows and under any interpretation, with the values supplied for its placeholders,
and behind the condition of the association if the join has one. Its parameters are numbered from
left to right. -/
theorem Query.bind_preserves_meaning {c c' : Compiler} {q later : Query} {i : Invocation}
    {args : Arguments} {options : JoinOptions} {offset k : Nat} {j : Join} {bq : BoundQuery}
    (hstandard : c.conditions = .standard)
    (hoptions : JoinOptions.ofExpr? c.config.optionTable .join i.options = .ok options)
    (hstatic : ∀ p, options.on? ≠ some (.interpolate p))
    (horigin : j.ComesFrom c q i offset) (hj : later.joins[k]? = some j)
    (h : later.bind args c' = .ok bq) :
    ∃ scope vars source bound,
      Scope.ofQuery q i.binding = .ok scope ∧ JoinVars.splitTarget i.target = .ok (vars, source) ∧
      bq.joins[k]? = some bound ∧ bound.slot = q.slotCount + offset ∧
      bound.on.term.paramIndices = List.range bound.on.params.length ∧
      ∀ (I : Interpretation Row D) (rows : Nat → Row), ∃ d,
        Expr.onMeaning? I (q.setting scope vars args (rows ∘ shiftSlot offset)) q.slotCount
          options.on? = some d ∧
        bound.on.meaning? I rows = some (bound.source.meaningBehind I rows bound.slot d) := by
  obtain ⟨built, hbuilt, hmove⟩ := horigin
  obtain ⟨origin, rfl⟩ := Compiler.build_eq_ok_iff.mp hbuilt
  cases origin.options_eq.symm.trans hoptions
  obtain ⟨bounds, t, hjoins, rfl⟩ := Binder.bind_eq_ok_iff.mp h
  have hk : k < bounds.length := by
    rw [Binder.length_of_bindJoins hjoins]
    exact (List.getElem?_eq_some_iff.mp hj).1
  have hbound : bounds[k]? = some bounds[k] := List.getElem?_eq_getElem hk
  obtain ⟨j', before, after, hj', hjoin, -⟩ := Binder.exists_step_of_bindJoins hjoins hbound
  cases hj.symm.trans hj'
  obtain ⟨p, aliasName, -, he⟩ := Binder.exists_parts_of_bindJoin hjoin
  rw [← he] at hbound
  refine ⟨origin.scope, origin.vars, origin.target, p.join aliasName, origin.scope_eq,
    origin.target_eq, hbound, hmove.slot_eq, ?_, ?_⟩
  · exact (p.meaning origin hstandard hstatic hmove .unit fun _ => ()).1
  · intro I rows
    exact (p.meaning origin hstandard hstatic hmove I rows).2

namespace Sample

/-- Truth is 1 and `and` is the product. -/
def arithmetic : Interpretation (String → Int) Int where
  value
    | .boolean b => if b then 1 else 0
    | .integer n => n.toInt
    | _ => 0
  field row name := row name
  binary
    | .and, x, y => x * y
    | .eq, x, y => if x = y then 1 else 0
    | .gt, x, y => if y < x then 1 else 0
    | _, _, _ => 0
  not x := 1 - x
  isNil _ := 0
  list _ := 0
  true_and := Int.one_mul
  and_true := Int.mul_one

/-- Post 7 in slot 0 and, in slot 2, a comment on it with a score of 5. -/
def postAndComment (slot : Nat) (name : String) : Int :=
  if slot = 0 ∧ name = "id" then 7
  else if slot = 2 ∧ name = "post_id" then 7
  else if slot = 2 ∧ name = "score" then 5
  else 0

def commentsOptions : JoinOptions where
  entries := .ofList [("on", .binary .and
    (.binary .eq (.field "c" "post_id") (.field "p" "id"))
    (.binary .gt (.field "c" "score") (.interpolate (.positional 0))))]

theorem bind_commentsTwice : postsWithCommentsTwice.bind (scoreAbove 3) binder =
    .ok ⟨posts.base, [boundComments 1 3, boundComments 2 3], .empty⟩ := rfl

theorem comesFrom_comments : (commentsJoin 2).ComesFrom compiler posts comments 1 :=
  ⟨commentsJoin 1, rfl, .inl rfl⟩

/-- The comments in slot 2 are asked for what was written when they were to have slot 1. -/
theorem bind_preserves_meaning_comments :
    (commentsJoin 2).ComesFrom compiler posts comments 1 ∧
      (boundComments 2 3).on.term.paramIndices = [0] ∧
      (boundComments 2 3).on.meaning? arithmetic postAndComment = some 1 := by
  have hstatic : ∀ p, commentsOptions.on? ≠ some (.interpolate p) := by
    intro p hp
    cases hp
  obtain ⟨scope, vars, source, bound, hscope, hvars, hbound, -, hindices, hmeaning⟩ :=
    @Query.bind_preserves_meaning (String → Int) Int _ _ _ _ _ _ _ _ 1 _ _ rfl rfl hstatic
      comesFrom_comments rfl bind_commentsTwice
  cases hscope
  cases hvars
  cases hbound
  obtain ⟨d, hd, hon⟩ := hmeaning arithmetic postAndComment
  cases hd
  exact ⟨comesFrom_comments, hindices, hon⟩

end Sample

end StagedJoin
