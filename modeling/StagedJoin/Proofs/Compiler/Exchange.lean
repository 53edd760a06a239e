import StagedJoin.Proofs.Bound.Clauses
import StagedJoin.Proofs.Compiler.Failures
import StagedJoin.Proofs.Compiler.Options
import StagedJoin.Proofs.Query.Origin
import StagedJoin.Proofs.Source.Placeholders

/-!
Joins that differ in their options alone. With the standard compiler, a condition of the
variables in view never reaches past its join, so an invocation with other options that
pass their check is built to the same join but for what the options say.
-/
namespace StagedJoin

/-- The invocation with options of which one is the condition `e`. -/
def Invocation.withOn (i : Invocation) (before after : List (String × Expr)) (e : Expr) :
    Invocation :=
  { i with options := some (.keyword (before ++ ("on", e) :: after)) }

namespace Compiler

variable {c : Compiler} {q : Query} {i : Invocation}

namespace Parts

/-- The parts of an invocation are what its checks leave, and no others. -/
theorem unique (p p' : c.Parts q i) : p = p' := by
  obtain ⟨_, _, _, _, _, _, _, _, hqualifier, hoptions, hscope, htarget, _, hsized, _, hjoined, hon,
    _⟩ := p
  obtain ⟨_, _, _, _, _, _, _, _, hqualifier', hoptions', hscope', htarget', _, hsized', _,
    hjoined', hon', _⟩ := p'
  cases hqualifier.symm.trans hqualifier'
  cases hoptions.symm.trans hoptions'
  cases hscope.symm.trans hscope'
  cases htarget.symm.trans htarget'
  cases hsized.symm.trans hsized'
  cases hjoined.symm.trans hjoined'
  cases hon.symm.trans hon'
  rfl

/-- The variables in view of the clause name slots up to the last one of the join. -/
theorem joined_inView (p : c.Parts q i) :
    p.joined.InView ∧ p.joined.slots = q.slotCount + p.arity := by
  obtain ⟨hview, hslots⟩ := Scope.inView_of_resolve p.scope_eq
  obtain ⟨hjoined, hcount⟩ := hview.extend (JoinVars.nodup_names_of_splitTarget p.target_eq)
    p.arity_ok p.joined_eq
  rw [hslots] at hcount
  exact ⟨hjoined, hcount⟩

theorem context_below (p : c.Parts q i) : p.context.Below (q.slotCount + p.arity) := by
  obtain ⟨hview, hcount⟩ := p.joined_inView
  rw [← hcount]
  exact hview

/-- What the source is read in. -/
def sourceContext (p : c.Parts q i) : SourceContext := ⟨p.scope, p.vars, q.slotSchemas, c.view⟩

theorem owner_lt_of_ofExpr (p : c.Parts q i) {e : Expr} {sized : SizedSource}
    (h : JoinSource.ofExpr p.sourceContext e = .ok sized) (a : AssociationSource)
    (ha : sized.source = .association a) : a.owner < q.slotCount + p.arity := by
  obtain ⟨hview, hslots⟩ := Scope.inView_of_resolve p.scope_eq
  obtain ⟨name, hname⟩ := (JoinSource.sound_ofExpr h).owner a ha
  have hlt := hview name a.owner hname
  have hcount : p.scope.slots = q.slotCount := hslots
  omega

theorem owner_lt (p : c.Parts q i) (a : AssociationSource) (ha : p.sized.source = .association a) :
    a.owner < q.slotCount + p.arity := p.owner_lt_of_ofExpr p.sized_eq a ha

theorem slotCount_lt (p : c.Parts q i) : q.slotCount < q.slotCount + p.arity := by
  have hpos := p.arity_pos
  omega

/-- The condition of an association speaks of slots up to those of the join. -/
theorem natural_le_lastSlot (p : c.Parts q i) {b : Binder}
    {inner : Query → Except Failure BoundQuery} {before : BoundSlots} {j : Join}
    (hsource : j.source = p.sized.source) (hslot : j.slot = q.slotCount)
    (harity : j.arity = p.arity) {found : Binder.FoundSource}
    (h : b.bindSource inner before j = .ok found) :
    ∀ natural ∈ found.source.natural? j.slot, ∀ s ∈ natural.slots, s ≤ j.lastSlot := by
  have hpos := p.arity_pos
  refine Binder.natural_le_lastSlot ?_ (fun a ha => ?_) h
  · rw [Join.lastSlot]
    omega
  · have hlt := p.owner_lt a (hsource ▸ ha)
    rw [Join.lastSlot]
    omega

/-- A clause that is read with the standard compiler keeps to the slots of the join. -/
theorem last_ok_of_onClause (p : c.Parts q i) (hc : c.conditions = .standard) {target : Expr}
    {sized : SizedSource} (hsized : JoinSource.ofExpr p.sourceContext target = .ok sized)
    {schemas : List (Option String)} {e : Option Expr} {on : OnClause}
    (hon : c.onClause ⟨p.joined, schemas, c.view⟩ q.slotCount sized.source e = .ok on) :
    checkLastSlot on.maxSlot? (q.slotCount + p.arity - 1) = .ok () := by
  have hbelow : Context.Below (q.slotCount + p.arity) ⟨p.joined, schemas, c.view⟩ := p.context_below
  have howner := p.owner_lt_of_ofExpr hsized
  have hslots := (orderly_onClause hc hbelow p.slotCount_lt howner e).post hon
  refine checkLastSlot_eq_ok_iff.mpr ((on.forall_mem_maxSlot? _).mpr fun s hs => ?_)
  have hlt := hslots s hs
  omega

/-- The parts of an invocation with the same variables and as many slots, whose target, options and
clause pass their checks in the place of the others. -/
def exchange (p : c.Parts q i) (hc : c.conditions = .standard) {i' : Invocation}
    (hqualifier : i'.qualifier = i.qualifier) (hbinding : i'.binding = i.binding) {target : Expr}
    (htarget : JoinVars.splitTarget i'.target = .ok (p.vars, target)) {sized : SizedSource}
    (hsized : JoinSource.ofExpr p.sourceContext target = .ok sized)
    (harity : p.vars.arityWith sized = p.arity) {options : JoinOptions}
    (ho : JoinOptions.ofExpr? c.config.optionTable .join i'.options = .ok options) {on : OnClause}
    (hon : c.onClause ⟨p.joined, q.slotSchemas ++ sized.source.slotSchemas p.arity, c.view⟩
      q.slotCount sized.source options.on? = .ok on) : c.Parts q i' where
  qualifier := p.qualifier
  options := options
  scope := p.scope
  vars := p.vars
  target := target
  sized := sized
  joined := p.joined
  on := on
  qualifier_eq := hqualifier ▸ p.qualifier_eq
  options_eq := ho
  scope_eq := hbinding ▸ p.scope_eq
  target_eq := htarget
  fresh := p.fresh
  sized_eq := hsized
  arity_ok := harity ▸ JoinVars.checkArity_site p.arity_ok _
  joined_eq := harity ▸ p.joined_eq
  on_eq := harity ▸ hon
  last_ok := harity ▸ p.last_ok_of_onClause hc hsized hon

/-- The parts of the invocation with other options. -/
def withOptions (p : c.Parts q i) (hc : c.conditions = .standard) {e : Option Expr}
    {options : JoinOptions}
    (ho : JoinOptions.ofExpr? c.config.optionTable .join e = .ok options) {on : OnClause}
    (hon : c.onClause p.context q.slotCount p.sized.source options.on? = .ok on) :
    c.Parts q { i with options := e } :=
  p.exchange hc rfl rfl p.target_eq p.sized_eq rfl ho hon

theorem join_withOptions (p : c.Parts q i) (hc : c.conditions = .standard) {e : Option Expr}
    {options : JoinOptions}
    (ho : JoinOptions.ofExpr? c.config.optionTable .join e = .ok options) {on : OnClause}
    (hon : c.onClause p.context q.slotCount p.sized.source options.on? = .ok on)
    (h : PairsRelated (fun key v w => key ≠ "on" → w = v) p.options.entries.entries
      options.entries.entries) :
    (p.withOptions hc ho hon).join = { p.join with on := on } := by
  obtain ⟨halias, hprefix, hhints, hextensions⟩ := JoinOptions.eq_but_on h
  unfold join joinAlias
  simp only [withOptions, exchange, halias, hprefix, hhints, hextensions, arity]

section Condition

variable {before after : List (String × Expr)} {e e' : Expr}

theorem entries_withOn (p : c.Parts q (i.withOn before after e)) :
    p.options.entries.entries = before ++ ("on", e) :: after :=
  JoinOptions.entries_of_ofPairs p.options_eq

theorem on?_withOn (p : c.Parts q (i.withOn before after e)) : p.options.on? = some e := by
  refine OrderedMap.mem_entries_iff.mp ?_
  rw [p.entries_withOn]
  exact List.mem_append_right _ List.mem_cons_self

theorem on_withOn (p : c.Parts q (i.withOn before after e)) (hc : c.conditions = .standard)
    {clause : OnClause}
    (h : OnClause.ofExpr? .standard p.context q.slotCount (some e) = .ok clause) :
    p.on = clause.behind (p.sized.source.naturalCondition? q.slotCount) := by
  obtain ⟨clause', hclause, hon⟩ := onClause_eq_ok_iff.mp p.on_eq
  rw [p.on?_withOn, hc] at hclause
  cases hclause.symm.trans h
  exact hon.symm

/-- With another condition that the settings take and that can be read, the same join is built but
for its clause. -/
theorem exchangeOn (p : c.Parts q (i.withOn before after e)) (hc : c.conditions = .standard)
    (halike : c.config.TakesAlike "on" e e') {written : OnClause}
    (hw : OnClause.ofExpr? .standard p.context q.slotCount (some e') = .ok written) :
    ∃ p' : c.Parts q (i.withOn before after e'), p'.context = p.context ∧ p'.sized = p.sized ∧
      p'.join = { p.join with
        on := written.behind (p.sized.source.naturalCondition? q.slotCount) } := by
  obtain ⟨options, ho, hexchanged⟩ :=
    JoinOptions.ofPairs_related (PairsRelated.exchange before after "on" e e') (by
      rintro spec hspec v w (rfl | ⟨hname, rfl, rfl⟩) htakes
      · exact htakes
      · exact halike.takes_on hspec hname htakes) p.options_eq
  have hrelated : PairsRelated (fun key v w => key ≠ "on" → w = v) p.options.entries.entries
      options.entries.entries :=
    hexchanged.mono fun key v w h hkey => h.resolve_right fun hon => hkey hon.1
  have hoptions : JoinOptions.ofExpr? c.config.optionTable .join
      (some (.keyword (before ++ ("on", e') :: after))) = .ok options := ho
  have hon : options.on? = some e' := by
    refine OrderedMap.mem_entries_iff.mp ?_
    rw [JoinOptions.entries_of_ofPairs ho]
    exact List.mem_append_right _ List.mem_cons_self
  have hclause : c.onClause p.context q.slotCount p.sized.source options.on? =
      .ok (written.behind (p.sized.source.naturalCondition? q.slotCount)) := by
    rw [hon]
    refine onClause_eq_ok_iff.mpr ⟨written, ?_, rfl⟩
    rw [hc]
    exact hw
  exact ⟨p.withOptions hc hoptions hclause, rfl, rfl,
    p.join_withOptions hc hoptions hclause hrelated⟩

end Condition

/-- What is left to supply for a join, its clause apart, is so in the target or in an option. -/
theorem placeholders_with_clause (p : c.Parts q i) {clause : OnClause} {placeholder : Placeholder}
    (h : placeholder ∈ ({ p.join with on := clause } : Join).placeholders) :
    placeholder ∈ i.target.placeholders ∨ placeholder ∈ clause.placeholders ∨
      ∃ e ∈ p.options.entries.entries, e.1 ≠ "on" ∧ placeholder ∈ e.2.placeholders := by
  simp only [Join.placeholders_eq, List.mem_append] at h
  rcases h with ((((hsource | hon) | halias) | hprefix) | hhints) | hextensions
  · have htarget := JoinSource.placeholders_of_ofExpr p.sized_eq hsource
    exact .inl (JoinVars.placeholders_of_splitTarget p.target_eq htarget)
  · exact .inr (.inl hon)
  · have hname : placeholder ∈ Staged.placeholders? p.options.alias? := by
      change placeholder ∈ p.joinAlias.placeholders at halias
      unfold joinAlias at halias
      cases hgiven : p.options.alias? with
      | some name =>
        rw [hgiven] at halias
        exact halias
      | none =>
        rw [hgiven] at halias
        dsimp only at halias
        unfold Query.inferAlias at halias
        split at halias
        · split at halias <;> cases halias
        · cases halias
    obtain ⟨e, he, hp⟩ := JoinOptions.exists_entry_of_alias? hname
    exact .inr (.inr ⟨_, he, (by decide : "as" ≠ "on"), hp⟩)
  · obtain ⟨e, he, hp⟩ := JoinOptions.exists_entry_of_tablePrefix? hprefix
    exact .inr (.inr ⟨_, he, (by decide : "prefix" ≠ "on"), hp⟩)
  · obtain ⟨e, he, hp⟩ := JoinOptions.exists_entry_of_hints? hhints
    exact .inr (.inr ⟨_, he, (by decide : "hints" ≠ "on"), hp⟩)
  · obtain ⟨e, he, hcore, hp⟩ := JoinOptions.exists_entry_of_extensions hextensions
    refine .inr (.inr ⟨e, he, ?_, hp⟩)
    intro hname
    rw [hname] at hcore
    exact hcore List.mem_cons_self

theorem placeholders_of_entry (p : c.Parts q i) {e : String × Expr}
    (he : e ∈ p.options.entries.entries) {placeholder : Placeholder}
    (hp : placeholder ∈ e.2.placeholders) : placeholder ∈ i.placeholders := by
  obtain ⟨pairs, hpairs, hmem⟩ :=
    (JoinOptions.get?_eq_some_iff p.options_eq).mp (OrderedMap.mem_entries_iff.mp he)
  refine List.mem_append_right _ ?_
  rw [hpairs, Option.elim, Expr.placeholders, Expr.pairPlaceholders_eq_flatMap]
  exact List.mem_flatMap.mpr ⟨_, hmem, hp⟩

/-- What is left to supply for a join, its clause apart, is so in the invocation. -/
theorem within_apart_clause (p : c.Parts q i) {A : Placeholder → Prop}
    (hi : ∀ pl ∈ i.placeholders, A pl) : (p.join.withClause (.compiled .truth)).Within A := by
  refine Join.within_of_placeholders fun pl h => hi pl ?_
  rcases p.placeholders_with_clause h with htarget | hclause | ⟨e, he, -, hp⟩
  · exact List.mem_append_left _ (List.mem_append_right _ htarget)
  · cases hclause
  · exact p.placeholders_of_entry he hp

theorem placeholders_of_on? (p : c.Parts q i) {placeholder : Placeholder}
    (h : placeholder ∈ p.options.on?.elim [] Expr.placeholders) :
    placeholder ∈ i.placeholders := by
  cases hon : p.options.on? with
  | none =>
    rw [hon] at h
    cases h
  | some e =>
    rw [hon] at h
    exact p.placeholders_of_entry (OrderedMap.mem_entries_iff.mpr hon) h

end Parts

end Compiler

end StagedJoin
