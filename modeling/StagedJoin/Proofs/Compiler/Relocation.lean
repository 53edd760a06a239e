import StagedJoin.Proofs.Condition.Relocation
import StagedJoin.Proofs.Query.Reachable
import StagedJoin.Proofs.Scope.Relocation

/-!
Joins that are built apart and then absorbed are the joins built in place. A join
built on a query with the same base and more slots comes out moved, and gives up an
inferred alias exactly where an absorption would take it away; so a sequence of
joins may be built on either query, and succeeds on the longer one exactly when the
absorption does.
-/
namespace StagedJoin

variable {offset : Nat}

/-! ## Sources -/

def SizedSource.shift (offset : Nat) (s : SizedSource) : SizedSource :=
  ⟨s.source.shift offset, s.arity⟩

/-- `ctx'` has the variables of `ctx` at moved slots, with the same schemas. -/
structure SourceContext.Moved (offset : Nat) (ctx ctx' : SourceContext) : Prop where
  scope : ctx.scope.Moved offset ctx'.scope
  vars_eq : ctx'.vars = ctx.vars
  schemas : SchemasMoved offset ctx.schemas ctx'.schemas
  view_eq : ctx'.view = ctx.view

namespace JoinSource

variable {ctx ctx' : SourceContext} {sized : SizedSource}

theorem slotSchemas_shift (arity : Nat) (source : JoinSource) :
    (source.shift offset).slotSchemas arity = source.slotSchemas arity := by
  cases source <;> rfl

theorem ownerSlot_shift (h : ctx.Moved offset ctx') {e : Expr} {slot : Nat}
    (hs : ownerSlot ctx e = .ok slot) : ownerSlot ctx' e = .ok (shiftSlot offset slot) := by
  unfold ownerSlot at hs ⊢
  split at hs
  · rename_i name
    simp only [h.vars_eq, h.scope.slot?_shift]
    split at hs
    · cases hs
    · rename_i hvars
      split at hs
      · rename_i found hfound
        cases hs
        simp only [hvars, hfound, Option.map_some]
        rfl
      · cases hs
  · cases hs

theorem resolveAssociation_shift (h : ctx.Moved offset ctx') (call : Expr) (owner : Nat)
    (field : Staged String) :
    resolveAssociation ctx' call (shiftSlot offset owner) field =
      resolveAssociation ctx call owner field := by
  have hschema : ctx'.schema? (shiftSlot offset owner) = ctx.schema? owner := by
    rw [SourceContext.schema?, SourceContext.schema?, h.schemas.getElem?]
  unfold resolveAssociation
  rw [hschema, h.view_eq]

theorem ofAssociation_shift (h : ctx.Moved offset ctx') {call owner field : Expr}
    (hs : ofAssociation ctx call owner field = .ok sized) :
    ofAssociation ctx' call owner field = .ok (sized.shift offset) := by
  obtain ⟨slot, hslot, hs⟩ := bind_eq_ok.mp hs
  obtain ⟨name, hname, hs⟩ := bind_eq_ok.mp hs
  obtain ⟨resolved, hresolved, hs⟩ := bind_eq_ok.mp hs
  cases hs
  have hresolved' : resolveAssociation ctx' call (shiftSlot offset slot) name = .ok resolved := by
    rw [resolveAssociation_shift h]
    exact hresolved
  exact bind_eq_ok.mpr ⟨_, ownerSlot_shift h hslot, bind_eq_ok.mpr ⟨name, hname,
    bind_eq_ok.mpr ⟨resolved, hresolved', rfl⟩⟩⟩

theorem shift_of_ofSubquery {call inner : Expr} {options : Option Expr}
    (hs : ofSubquery call inner options = .ok sized) : sized.shift offset = sized := by
  rcases ofSubquery_cases hs with ⟨q, p, -, rfl⟩ | ⟨placeholder, p, rfl⟩ <;> rfl

/-- Of the calls, only associations look at the variables. -/
theorem callReads_shift (h : ctx.Moved offset ctx') {call : Expr} {function : String}
    {args : List Expr} (hs : CallReads ctx call sized function args) :
    CallReads ctx' call (sized.shift offset) function args := by
  cases hs with
  | subquery hs =>
    rw [shift_of_ofSubquery hs]
    exact .subquery hs
  | subqueryWith hs =>
    rw [shift_of_ofSubquery hs]
    exact .subqueryWith hs
  | assoc hs => exact .assoc (ofAssociation_shift h hs)
  | values hs =>
    obtain ⟨source, rfl⟩ := exists_values_of_ofValues hs
    exact .values hs

/-- A source that is read behind more slots is the moved source. -/
theorem ofExpr_shift (h : ctx.Moved offset ctx') {e : Expr} (hs : ofExpr ctx e = .ok sized) :
    ofExpr ctx' e = .ok (sized.shift offset) := by
  unfold ofExpr at hs ⊢
  split at hs
  case h_5 q =>
    unfold ofQuery at hs
    split at hs
    · cases hs
    · rename_i hjoins
      cases hs
      simp only [ofQuery, hjoins]
      rfl
  case h_6 => exact ofCall_eq_ok_iff.mpr (callReads_shift h (ofCall_eq_ok_iff.mp hs))
  all_goals
    cases hs
    try rfl

end JoinSource

/-! ## Queries with more slots -/

/-- `q'` has `offset` more slots behind its base than `q`, the same schemas in the others, and
every name of `q` is taken. -/
structure Query.Behind (offset : Nat) (q q' : Query) : Prop where
  slotCount_eq : q'.slotCount = q.slotCount + offset
  schemas : SchemasMoved offset q.slotSchemas q'.slotSchemas
  name_taken : ∀ name, q.aliases.contains name = true → q'.aliases.contains name = true

namespace Query

variable {q q' r r' : Query} {j : Join}

/-- The alias of a join that is absorbed. -/
def yieldedAlias (aliases : OrderedMap Nat) : JoinAlias → JoinAlias
  | .inferred name => if aliases.contains name then .none else .inferred name
  | other => other

theorem yieldAlias_eq (aliases : OrderedMap Nat) (j : Join) :
    yieldAlias aliases j = { j with joinAlias := yieldedAlias aliases j.joinAlias } := by
  obtain ⟨_, _, _, joinAlias, _, _, _, _, _, _⟩ := j
  cases joinAlias with
  | inferred name =>
    simp only [yieldAlias, yieldedAlias, Join.withoutAlias]
    split <;> rfl
  | none => rfl
  | explicit name => rfl

/-- An alias that is inferred in place is the one that an absorption leaves. -/
theorem Behind.inferAlias_eq (h : q.Behind offset q') (source : JoinSource) :
    q'.inferAlias (source.shift offset) = yieldedAlias q'.aliases (q.inferAlias source) := by
  have hname : (source.shift offset).inferredName? = source.inferredName? := by
    cases source <;> rfl
  unfold inferAlias
  rw [hname]
  cases source.inferredName? with
  | none => rfl
  | some name =>
    have htaken := h.name_taken name
    simp only [OrderedMap.contains_eq_isSome] at htaken
    by_cases hq : (q.aliasSlot? name).isSome
    · have hq' : (q'.aliasSlot? name).isSome := htaken hq
      simp only [hq, hq', ↓reduceIte, yieldedAlias]
    · simp only [hq, Bool.false_eq_true, ↓reduceIte, yieldedAlias, OrderedMap.contains_eq_isSome]
      rfl

theorem slotSchemas_append (h : q.append j = .ok r) :
    r.slotSchemas = q.slotSchemas ++ j.schemas := by
  obtain ⟨-, aliases, -, rfl⟩ := append_eq_ok_iff.mp h
  simp only [slotSchemas, List.flatMap_append, List.flatMap_singleton, List.cons_append]

theorem contains_append (h : q.append j = .ok r) (name : String) :
    r.aliases.contains name = true ↔
      q.aliases.contains name = true ∨ j.joinAlias.name? = some name := by
  obtain ⟨-, aliases, haliases, rfl⟩ := append_eq_ok_iff.mp h
  obtain ⟨-, rfl⟩ := registerAlias_eq_ok_iff.mp haliases
  cases j.joinAlias.name? with
  | none => simp
  | some taken =>
    simp only [Option.elim_some, OrderedMap.contains_eq_isSome, OrderedMap.get?_insert,
      Option.some.injEq]
    by_cases hname : name = taken
    · simp [hname]
    · simp [hname, Ne.symm hname]

/-- Appending a join and its moved counterpart keeps the queries in step. -/
theorem Behind.append (h : q.Behind offset q') (hr : q.append j = .ok r)
    (hr' : q'.append (yieldAlias q'.aliases (j.shift offset)) = .ok r') : r.Behind offset r' := by
  have hyield := yieldAlias_eq q'.aliases (j.shift offset)
  refine ⟨?_, ?_, ?_⟩
  · rw [slotCount_append hr, slotCount_append hr', h.slotCount_eq, hyield]
    simp only [Join.shift]
    omega
  · rw [slotSchemas_append hr, slotSchemas_append hr', hyield]
    exact h.schemas.append j.schemas
  · intro name hname
    rw [contains_append hr']
    rcases (contains_append hr name).mp hname with hname | hname
    · exact .inl (h.name_taken name hname)
    · by_cases htaken : q'.aliases.contains name = true
      · exact .inl htaken
      · refine .inr ?_
        rw [hyield]
        change (yieldedAlias q'.aliases j.joinAlias).name? = some name
        cases hj : j.joinAlias with
        | none => rw [hj] at hname; cases hname
        | explicit given => rw [hj] at hname; exact hname
        | inferred given =>
          rw [hj] at hname
          cases hname
          rw [yieldedAlias, if_neg htaken]
          rfl

end Query

/-! ## Building a join -/

namespace Compiler

variable {c : Compiler} {q q' : Query} {i : Invocation} {j : Join}

/-- The parts of a join, as they are found behind more slots. -/
theorem Parts.exists_behind (p : c.Parts q i) (hc : c.conditions.Relocatable)
    (ha : Anchored i.binding) (h : q.Behind offset q') :
    ∃ p' : c.Parts q' i, p'.qualifier = p.qualifier ∧ p'.options = p.options ∧
      p'.vars = p.vars ∧ p'.sized = p.sized.shift offset ∧ p'.on = p.on.shift offset := by
  -- The binding list names the base and the last slots, so it reads the same behind more slots.
  obtain ⟨scope, hscope, hmoved⟩ := Scope.resolve_anchored ha p.scope_eq offset q'.aliases
  rw [← h.slotCount_eq] at hscope
  have hslots := (Scope.inView_of_resolve p.scope_eq).2
  have hpos := q.slotCount_pos
  obtain ⟨joined, hjoined, hmoved'⟩ := hmoved.extend (by omega) p.joined_eq
  have hfresh : scope.checkFresh p.vars = .ok () := by
    rw [hmoved.checkFresh_eq]
    exact p.fresh
  have hsource : SourceContext.Moved offset ⟨p.scope, p.vars, q.slotSchemas, c.view⟩
      ⟨scope, p.vars, q'.slotSchemas, c.view⟩ := ⟨hmoved, rfl, h.schemas, rfl⟩
  have hsized := JoinSource.ofExpr_shift hsource p.sized_eq
  have hcontext : Context.Moved offset
      ⟨p.joined, q.slotSchemas ++ p.sized.source.slotSchemas p.arity, c.view⟩
      ⟨joined, q'.slotSchemas ++ p.sized.source.slotSchemas p.arity, c.view⟩ :=
    ⟨Context.SeesMoved.of_schemas rfl (h.schemas.append _), hmoved'.slot?_shift⟩
  -- The clause is compiled with the slots of the join in view, which have moved with it.
  have hon := onClause_shift hc hcontext hpos p.sized.source p.options.on?
  have hclause := p.on_eq
  change c.onClause ⟨p.joined, q.slotSchemas ++ p.sized.source.slotSchemas p.arity, c.view⟩ _ _ _ =
    _ at hclause
  rw [hclause, ← h.slotCount_eq] at hon
  have hlast :
      checkLastSlot (p.on.shift offset).maxSlot? (q'.slotCount + p.arity - 1) = .ok () := by
    have hle := (p.on.forall_mem_maxSlot? _).mp (checkLastSlot_eq_ok_iff.mp p.last_ok)
    rw [checkLastSlot_eq_ok_iff, OnClause.forall_mem_maxSlot?, OnClause.slots_shift]
    intro s hs
    have hmove := forall_mem_map_shiftSlot_le offset hle s hs
    rw [h.slotCount_eq]
    change s ≤ q.slotCount + p.arity - 1 + offset at hmove
    omega
  refine ⟨⟨p.qualifier, p.options, scope, p.vars, p.target, p.sized.shift offset, joined,
    p.on.shift offset, p.qualifier_eq, p.options_eq, hscope, p.target_eq, hfresh, hsized,
    p.arity_ok, hjoined, ?_, hlast⟩, rfl, rfl, rfl, rfl, rfl⟩
  rw [SizedSource.shift, JoinSource.slotSchemas_shift]
  exact hon

/-- In place, a join is built as the absorption of the join would leave it. -/
theorem build_behind (hc : c.conditions.Relocatable) (ha : Anchored i.binding)
    (h : q.Behind offset q') (hj : c.build q i = .ok j) :
    c.build q' i = .ok (Query.yieldAlias q'.aliases (j.shift offset)) := by
  obtain ⟨p, rfl⟩ := build_eq_ok_iff.mp hj
  obtain ⟨p', hqualifier, hoptions, hvars, hsized, hon⟩ := p.exists_behind hc ha h
  refine build_eq_ok_iff.mpr ⟨p', ?_⟩
  have harity : p'.arity = p.arity := by
    rw [Parts.arity, Parts.arity, hvars, hsized]
    rfl
  have halias : p'.joinAlias = Query.yieldedAlias q'.aliases p.joinAlias := by
    unfold Parts.joinAlias
    rw [hoptions, hsized]
    cases p.options.alias? with
    | some name => rfl
    | none => exact h.inferAlias_eq p.sized.source
  rw [Query.yieldAlias_eq]
  simp only [Parts.join, Join.shift, hqualifier, hoptions, hsized, hon, harity, halias,
    h.slotCount_eq, SizedSource.shift, JoinSource.slotSchemas_shift]

/-- Joining in place is appending the join as an absorption would. -/
theorem join_behind (hc : c.conditions.Relocatable) (ha : Anchored i.binding)
    (h : q.Behind offset q') (hj : c.build q i = .ok j) (r : Query) :
    c.join q' i = .ok r ↔ q'.append (Query.yieldAlias q'.aliases (j.shift offset)) = .ok r := by
  unfold Compiler.join
  rw [build_behind hc ha h hj]
  exact mapError_eq_ok

theorem joins_of_foldlM {is : List Invocation} {o : Query} (h : is.foldlM c.join q = .ok o) :
    ∃ added, o.joins = q.joins ++ added := by
  induction is generalizing q with
  | nil =>
    cases h
    exact ⟨[], (List.append_nil _).symm⟩
  | cons i rest ih =>
    rw [List.foldlM_cons] at h
    obtain ⟨q₁, hq₁, h⟩ := bind_eq_ok.mp h
    obtain ⟨j, -, hj, -⟩ := Query.joins_of_join hq₁
    obtain ⟨added, hadded⟩ := ih h
    exact ⟨j :: added, by rw [hadded, hj, List.append_assoc, List.singleton_append]⟩

/-- Joining one after the other in place is absorbing what the same joins have added to the
shorter query. -/
theorem foldlM_join_behind (hc : c.conditions.Relocatable) {is : List Invocation}
    (ha : ∀ i ∈ is, Anchored i.binding) (h : q.Behind offset q') {o : Query}
    (ho : is.foldlM c.join q = .ok o) {added : List Join} (hadded : o.joins = q.joins ++ added)
    (r : Query) : is.foldlM c.join q' = .ok r ↔ q'.appendShifted offset added = .ok r := by
  induction is generalizing q q' added with
  | nil =>
    cases ho
    rw [List.self_eq_append_right.mp hadded, List.foldlM_nil, Query.appendShifted,
      pure_eq_ok, Except.ok.injEq]
  | cons i rest ih =>
    rw [List.foldlM_cons] at ho
    obtain ⟨q₁, hq₁, ho⟩ := bind_eq_ok.mp ho
    obtain ⟨p, hp⟩ := join_eq_ok_iff.mp hq₁
    have hbuild : c.build q i = .ok p.join := build_eq_ok_iff.mpr ⟨p, rfl⟩
    have hjoins : q₁.joins = q.joins ++ [p.join] := by
      obtain ⟨-, aliases, -, rfl⟩ := Query.append_eq_ok_iff.mp hp
      rfl
    obtain ⟨more, hmore⟩ := joins_of_foldlM ho
    have hcons : added = p.join :: more := by
      rw [hmore, hjoins, List.append_assoc, List.singleton_append] at hadded
      exact (List.append_cancel_left hadded).symm
    -- Either both sides take this join or both fail at it.
    have hstep := join_behind hc (ha i List.mem_cons_self) h hbuild
    have hrest : ∀ k ∈ rest, Anchored k.binding := fun k hk => ha k (List.mem_cons_of_mem _ hk)
    rw [hcons, List.foldlM_cons, bind_eq_ok, Query.appendShifted_cons_eq_ok_iff]
    refine exists_congr fun q₁' => ?_
    rw [hstep]
    exact and_congr_right fun happend => ih hrest (h.append hp happend) ho hmore

end Compiler

/-! ## Building apart and absorbing -/

namespace Query

variable {q b o : Query}

/-- No name of the base is shared where there is none. -/
theorem shareBaseAliases_of_ne_zero {entries : List (String × Nat)}
    (h : ∀ e ∈ entries, e.2 ≠ 0) (aliases : OrderedMap Nat) :
    shareBaseAliases aliases entries = .ok aliases := by
  induction entries with
  | nil => rfl
  | cons e rest ih =>
    obtain ⟨name, slot⟩ := e
    have hslot : slot ≠ 0 := h (name, slot) List.mem_cons_self
    rw [shareBaseAliases, if_pos hslot]
    exact ih fun e he => h e (List.mem_cons_of_mem _ he)

theorem ne_zero_of_append {r : Query} {j : Join} (hq : ∀ e ∈ q.aliases.entries, e.2 ≠ 0)
    (h : q.append j = .ok r) : ∀ e ∈ r.aliases.entries, e.2 ≠ 0 := by
  obtain ⟨hslot, aliases, haliases, rfl⟩ := append_eq_ok_iff.mp h
  obtain ⟨-, rfl⟩ := registerAlias_eq_ok_iff.mp haliases
  cases j.joinAlias.name? with
  | none => exact hq
  | some name =>
    have hpos : j.slot ≠ 0 := by
      rw [hslot]
      exact Nat.ne_of_gt q.slotCount_pos
    exact OrderedMap.forall_entries_insert (P := (· ≠ 0)) hq hpos

/-- Joins never name the base. -/
theorem ne_zero_of_foldlM {c : Compiler} {is : List Invocation}
    (hb : ∀ e ∈ b.aliases.entries, e.2 ≠ 0) (h : is.foldlM c.join b = .ok o) :
    ∀ e ∈ o.aliases.entries, e.2 ≠ 0 := by
  induction is generalizing b with
  | nil =>
    cases h
    exact hb
  | cons i rest ih =>
    rw [List.foldlM_cons] at h
    obtain ⟨b₁, hb₁, h⟩ := bind_eq_ok.mp h
    obtain ⟨p, hp⟩ := Compiler.join_eq_ok_iff.mp hb₁
    exact ih (ne_zero_of_append hb hp) h

/-- A query without joins and names stands in front of every query with a layout on its base. -/
theorem behind_of_layout (hq : q.Layout) (hjoins : b.joins = []) (haliases : b.aliases = .empty)
    (hbase : b.base.source.schema = q.base.source.schema) : b.Behind (q.slotCount - 1) q := by
  refine ⟨?_, ?_, ?_⟩
  · rw [slotCount, slotCount, hjoins, Join.totalArity, Nat.add_sub_cancel_left]
  · refine ⟨q.base.source.schema, q.joins.flatMap Join.schemas, [], ?_, ?_, ?_⟩
    · rw [slotSchemas, hjoins, hbase]
      rfl
    · rw [slotSchemas, List.append_nil]
    · have hlength := hq.length_slotSchemas
      rw [slotSchemas, List.length_cons] at hlength
      omega
  · intro name hname
    rw [haliases] at hname
    cases hname

end Query

/-- Joins with anchored binding lists, built on a bare query and then absorbed, are the joins
built in place: one way succeeds exactly when the other does, with the same query. -/
theorem Compiler.join_in_place_iff_absorb {c : Compiler} (hc : c.conditions = .standard)
    {is : List Invocation} (ha : ∀ i ∈ is, Anchored i.binding) {q b o : Query} (hq : q.Reachable)
    (hjoins : b.joins = []) (haliases : b.aliases = .empty)
    (hbase : b.base.source.schema = q.base.source.schema) (ho : is.foldlM c.join b = .ok o)
    (r : Query) : is.foldlM c.join q = .ok r ↔ q.absorb o = .ok r := by
  have hrelocatable : c.conditions.Relocatable := by
    rw [hc]
    exact ConditionCompiler.relocatable_standard
  have hnone : ∀ e ∈ b.aliases.entries, e.2 ≠ 0 := by
    rw [haliases]
    intro e he
    cases he
  have hadded : o.joins = b.joins ++ o.joins := by
    rw [hjoins, List.nil_append]
  have hbehind := Query.behind_of_layout hq.layout hjoins haliases hbase
  have hshare := Query.shareBaseAliases_of_ne_zero (Query.ne_zero_of_foldlM hnone ho) q.aliases
  rw [foldlM_join_behind hrelocatable ha hbehind ho hadded, Query.absorb, hshare]
  cases q
  exact Iff.rfl

namespace Sample

/-- `join(query, :inner, [p, ..., c], r in "replies", on: r.comment_id == c.id)`. -/
def replies : Invocation where
  qualifier := .atom "inner"
  binding := .list [.var "p", .ellipsis, .var "c"]
  target := .binary .mem (.var "r") (Expr.string "replies")
  options := some (.keyword [("on", .binary .eq (.field "r" "comment_id") (.field "c" "id"))])

def repliesJoin (slot comment : Nat) : Join where
  qualifier := .inner
  source := .table { table := some "replies" }
  on := .compiled ⟨.eq (.field slot "comment_id") (.field comment "id"), []⟩
  joinAlias := .none
  tablePrefix := none
  hints := none
  extensions := .empty
  slot := slot
  arity := 1
  schemas := [none]

theorem anchored_comments_replies : ∀ i ∈ [comments, replies], Anchored i.binding := by
  intro i hi
  simp only [List.mem_cons, List.not_mem_nil, or_false] at hi
  rcases hi with rfl | rfl
  · exact .base "p"
  · exact .last "p" ["c"]

/-- Behind comments that are there, the ellipsis reaches the comments that are joined now. -/
theorem join_in_place_comments_replies :
    [comments, replies].foldlM compiler.join posts =
        .ok ⟨posts.base, [commentsJoin 1, repliesJoin 2 1], .empty⟩ ∧
      [comments, replies].foldlM compiler.join postsWithComments =
        .ok ⟨posts.base, [commentsJoin 1, commentsJoin 2, repliesJoin 3 2], .empty⟩ := by
  have happart : [comments, replies].foldlM compiler.join posts =
      .ok ⟨posts.base, [commentsJoin 1, repliesJoin 2 1], .empty⟩ := rfl
  have habsorb : postsWithComments.absorb
      ⟨posts.base, [commentsJoin 1, repliesJoin 2 1], .empty⟩ =
      .ok ⟨posts.base, [commentsJoin 1, commentsJoin 2, repliesJoin 3 2], .empty⟩ := rfl
  have hjoins : posts.joins = [] := rfl
  have haliases : posts.aliases = .empty := rfl
  have hiff := Compiler.join_in_place_iff_absorb rfl anchored_comments_replies
    reachable_postsWithComments hjoins haliases rfl happart
  exact ⟨happart, (hiff _).mpr habsorb⟩

end Sample

end StagedJoin
