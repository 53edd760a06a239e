import StagedJoin.Config
import StagedJoin.Proofs.OrderedMap
import StagedJoin.Proofs.Outcome

/-!
Options whose values are exchanged. Options under the same keys in the same order are
accepted alike, as long as every specification of a key takes its new value if it took
the old one; what is read from them is then found under the same keys.
-/
namespace StagedJoin

variable {α β γ : Type} {R : String → α → β → Prop}

/-! ## Related pairs -/

/-- As many pairs, with the same keys in the same order and related values. -/
def PairsRelated (R : String → α → β → Prop) (ps : List (String × α)) (qs : List (String × β)) :
    Prop :=
  List.Forall₂ (fun p q => q.1 = p.1 ∧ R p.1 p.2 q.2) ps qs

namespace PairsRelated

theorem refl {R : String → α → α → Prop} (h : ∀ key v, R key v v) (ps : List (String × α)) :
    PairsRelated R ps ps :=
  List.forall₂_same.mpr fun p _ => ⟨rfl, h p.1 p.2⟩

theorem mono {R' : String → α → β → Prop} {ps : List (String × α)} {qs : List (String × β)}
    (h : PairsRelated R ps qs) (hr : ∀ key v w, R key v w → R' key v w) : PairsRelated R' ps qs :=
  List.Forall₂.imp (fun p q hpq => ⟨hpq.1, hr p.1 p.2 q.2 hpq.2⟩) h

theorem flip {ps : List (String × α)} {qs : List (String × β)} (h : PairsRelated R ps qs) :
    PairsRelated (fun key v w => R key w v) qs ps :=
  List.Forall₂.flip (List.Forall₂.imp (fun _ _ hpq => ⟨hpq.1.symm, hpq.1 ▸ hpq.2⟩) h)

theorem append {ps ps' : List (String × α)} {qs qs' : List (String × β)} (h : PairsRelated R ps qs)
    (h' : PairsRelated R ps' qs') : PairsRelated R (ps ++ ps') (qs ++ qs') := List.rel_append h h'

/-- One value is exchanged for another. -/
theorem exchange (before after : List (String × α)) (key : String) (v w : α) :
    PairsRelated (fun k a b => b = a ∨ k = key ∧ a = v ∧ b = w) (before ++ (key, v) :: after)
      (before ++ (key, w) :: after) :=
  have hsame := refl (R := fun k a b => b = a ∨ k = key ∧ a = v ∧ b = w) fun _ _ => .inl rfl
  (hsame before).append (.cons ⟨rfl, .inr ⟨rfl, rfl, rfl⟩⟩ (hsame after))

theorem eq_of_eq {ps qs : List (String × α)} (h : PairsRelated (fun _ v w => w = v) ps qs) :
    qs = ps := by
  induction h with
  | nil => rfl
  | cons hpq _ ih => rw [ih, Prod.ext hpq.1 hpq.2]

theorem keys_eq {ps : List (String × α)} {qs : List (String × β)} (h : PairsRelated R ps qs) :
    qs.map Prod.fst = ps.map Prod.fst := by
  induction h with
  | nil => rfl
  | cons hpq _ ih => rw [List.map_cons, List.map_cons, hpq.1, ih]

/-- A key is found on neither side, or on both with related values. -/
theorem lookup_cases {ps : List (String × α)} {qs : List (String × β)} (h : PairsRelated R ps qs)
    (key : String) :
    (ps.lookup key = none ∧ qs.lookup key = none) ∨
      ∃ v w, ps.lookup key = some v ∧ qs.lookup key = some w ∧ R key v w := by
  induction h with
  | nil => exact .inl ⟨rfl, rfl⟩
  | @cons p q _ _ hpq _ ih =>
    obtain ⟨hkey, hr⟩ := hpq
    rw [List.lookup_cons, List.lookup_cons, hkey]
    split
    · rename_i hk
      exact .inr ⟨p.2, q.2, rfl, rfl, eq_of_beq hk ▸ hr⟩
    · exact ih

theorem put {ps : List (String × α)} {qs : List (String × β)} (h : PairsRelated R ps qs)
    {key : String} {v : α} {w : β} (hr : R key v w) :
    PairsRelated R (OrderedMap.put key v ps) (OrderedMap.put key w qs) := by
  induction h with
  | nil => exact .cons ⟨rfl, hr⟩ .nil
  | @cons p q _ _ hpq hrest ih =>
    rw [OrderedMap.put, OrderedMap.put, hpq.1]
    by_cases hk : p.1 = key
    · rw [if_pos hk, if_pos hk]
      exact .cons ⟨rfl, hk ▸ hr⟩ hrest
    · rw [if_neg hk, if_neg hk]
      exact .cons ⟨rfl, hpq.2⟩ ih

/-- Keeping related entries on both sides keeps them related. -/
theorem filterMapList {α' β' : Type} {f : String → α → Option α'} {g : String → β → Option β'}
    {S : String → α' → β' → Prop} {ps : List (String × α)} {qs : List (String × β)}
    (h : PairsRelated R ps qs)
    (hfg : ∀ key v w, R key v w → (f key v = none ∧ g key w = none) ∨
      ∃ v' w', f key v = some v' ∧ g key w = some w' ∧ S key v' w') :
    PairsRelated S (OrderedMap.filterMapList f ps) (OrderedMap.filterMapList g qs) := by
  induction h with
  | nil => exact .nil
  | @cons p q _ _ hpq _ ih =>
    obtain ⟨key, v⟩ := p
    obtain ⟨key', w⟩ := q
    obtain ⟨rfl, hr⟩ := hpq
    rw [OrderedMap.filterMapList, OrderedMap.filterMapList]
    rcases hfg _ v w hr with ⟨hf, hg⟩ | ⟨v', w', hf, hg, hs⟩
    · simp only [hf, hg]
      exact ih
    · simp only [hf, hg]
      exact .cons ⟨rfl, hs⟩ ih

/-- Related entries that come to the same are traversed to the same. -/
theorem traverse_congr {ε : Type} {m : OrderedMap α} {n : OrderedMap β}
    (h : PairsRelated R m.entries n.entries) {f : String → α → Except ε γ}
    {g : String → β → Except ε γ}
    (hfg : ∀ e ∈ m.entries, ∀ w, R e.1 e.2 w → g e.1 w = f e.1 e.2) :
    n.traverse g = m.traverse f := by
  refine OrderedMap.traverse_eq_of_entries ?_
  unfold PairsRelated at h
  generalize m.entries = ps at h hfg
  generalize n.entries = qs at h
  induction h with
  | nil => rfl
  | @cons p q _ _ hpq _ ih =>
    rw [OrderedMap.traverseList, OrderedMap.traverseList, hpq.1,
      hfg p List.mem_cons_self q.2 hpq.2, ih fun e he => hfg e (List.mem_cons_of_mem _ he)]

end PairsRelated

/-! ## Options -/

namespace JoinOptions

variable {R : String → Expr → Expr → Prop} {table : List OptionSpec} {context : OptionContext}

/-- Pairs that are collected stay as they are, since no key comes twice. -/
theorem entries_of_collect {pairs : List (String × Expr)} {before entries : OrderedMap Expr}
    (h : collect before pairs = .ok entries) : entries.entries = before.entries ++ pairs := by
  induction pairs generalizing before with
  | nil =>
    cases h
    exact (List.append_nil _).symm
  | cons pair rest ih =>
    obtain ⟨key, value⟩ := pair
    rw [collect] at h
    split at h
    · cases h
    · rename_i hnew
      have hnone : before.get? key = none := by simpa using hnew
      rw [ih h, OrderedMap.entries_insert_of_get?_none _ _ _ hnone, List.append_assoc]
      rfl

/-- Valid options are the pairs that were given. -/
theorem entries_of_ofPairs {pairs : List (String × Expr)} {o : JoinOptions}
    (h : ofPairs table context pairs = .ok o) : o.entries.entries = pairs := by
  unfold ofPairs at h
  split at h
  · cases h
  · rename_i entries hentries
    split at h
    · cases h
    · split at h <;> cases h
      exact entries_of_collect hentries

/-- The valid options are those of the keyword list, if there is one. -/
theorem get?_eq_some_iff {options : Option Expr} {o : JoinOptions} {key : String} {e : Expr}
    (h : ofExpr? table context options = .ok o) :
    o.entries.get? key = some e ↔ ∃ pairs, options = some (.keyword pairs) ∧ (key, e) ∈ pairs := by
  rw [← OrderedMap.mem_entries_iff]
  cases options with
  | none =>
    cases h
    exact ⟨(fun hm => nomatch hm), fun ⟨_, hnone, _⟩ => nomatch hnone⟩
  | some given =>
    unfold ofExpr? at h
    dsimp only at h
    split at h
    · cases h
    · rename_i pairs hpairs
      rw [entries_of_ofPairs h]
      unfold Expr.asKeyword? at hpairs
      split at hpairs <;> cases hpairs
      · exact ⟨fun hm => ⟨pairs, rfl, hm⟩, by rintro ⟨_, ⟨⟩, hm⟩; exact hm⟩
      · exact ⟨(fun hm => nomatch hm), fun ⟨_, hlist, _⟩ => nomatch hlist⟩

theorem takes_of_checkValues {entries : OrderedMap Expr} {u : Unit} {spec : OptionSpec} {e : Expr}
    (h : checkValues entries table = .ok u) (hspec : spec ∈ table)
    (he : entries.get? spec.name = some e) : spec.takes e = true := by
  induction table with
  | nil => cases hspec
  | cons first rest ih =>
    rw [checkValues] at h
    split at h
    · cases h
    · rename_i hfirst
      rcases List.mem_cons.mp hspec with rfl | hspec
      · rw [he] at hfirst
        simp only [Option.elim, OptionSpec.check] at hfirst
        split at hfirst
        · assumption
        · cases hfirst
      · exact ih h hspec

/-- Every specification of its key takes the value of a valid option. -/
theorem takes_of_ofExpr? {options : Option Expr} {o : JoinOptions} {spec : OptionSpec} {e : Expr}
    (h : ofExpr? table context options = .ok o) (hspec : spec ∈ table)
    (he : o.entries.get? spec.name = some e) : spec.takes e = true := by
  obtain ⟨pairs, rfl, -⟩ := (get?_eq_some_iff h).mp he
  change ofPairs table context pairs = .ok o at h
  unfold ofPairs at h
  split at h
  · cases h
  · split at h
    · cases h
    · split at h
      · cases h
      · rename_i hvalues
        cases h
        exact takes_of_checkValues hvalues hspec he

theorem collect_related {ps qs : List (String × Expr)} (h : PairsRelated R ps qs)
    {m n o : OrderedMap Expr} (hm : PairsRelated R m.entries n.entries)
    (ho : collect m ps = .ok o) :
    ∃ o', collect n qs = .ok o' ∧ PairsRelated R o.entries o'.entries := by
  induction h generalizing m n with
  | nil =>
    cases ho
    exact ⟨n, rfl, hm⟩
  | @cons p q _ _ hpq _ ih =>
    obtain ⟨key, v⟩ := p
    obtain ⟨key', w⟩ := q
    obtain ⟨rfl, hr⟩ := hpq
    rw [collect] at ho ⊢
    split at ho
    · cases ho
    · rename_i hnew
      have hnew' : ¬ n.contains key' = true := by
        intro hc
        rcases hm.lookup_cases key' with ⟨-, hnone⟩ | ⟨v', w', hv', -, -⟩
        · simp [OrderedMap.get?, hnone] at hc
        · exact hnew (by simp [OrderedMap.get?, hv'])
      rw [if_neg hnew']
      exact ih (hm.put hr) ho

theorem checkValues_related {m n : OrderedMap Expr} (hm : PairsRelated R m.entries n.entries)
    (htakes : ∀ spec ∈ table, ∀ v w, R spec.name v w → spec.takes v = true → spec.takes w = true)
    {u : Unit} (h : checkValues m table = .ok u) : checkValues n table = .ok u := by
  induction table with
  | nil => exact h
  | cons spec rest ih =>
    rw [checkValues] at h ⊢
    split at h
    · cases h
    · rename_i hspec
      have hspec' : (n.get? spec.name).elim (.ok ()) spec.check = .ok () := by
        rcases hm.lookup_cases spec.name with ⟨-, hnone⟩ | ⟨v, w, hv, hw, hr⟩
        · have hget : n.get? spec.name = none := hnone
          rw [hget]
          rfl
        · have hget : m.get? spec.name = some v := hv
          have hget' : n.get? spec.name = some w := hw
          rw [hget] at hspec
          rw [hget']
          simp only [Option.elim, OptionSpec.check] at hspec ⊢
          split at hspec
          · rename_i htaken
            rw [if_pos (htakes spec List.mem_cons_self v w hr htaken)]
          · cases hspec
      rw [hspec']
      exact ih (fun s hs => htakes s (List.mem_cons_of_mem _ hs)) h

/-- Options stay valid when values are exchanged for others that every specification takes. -/
theorem ofPairs_related {ps qs : List (String × Expr)} (h : PairsRelated R ps qs)
    (htakes : ∀ spec ∈ table, ∀ v w, R spec.name v w → spec.takes v = true → spec.takes w = true)
    {o : JoinOptions} (ho : ofPairs table context ps = .ok o) :
    ∃ o', ofPairs table context qs = .ok o' ∧
      PairsRelated R o.entries.entries o'.entries.entries := by
  unfold ofPairs at ho
  split at ho
  · cases ho
  · rename_i entries hentries
    obtain ⟨entries', hentries', hrelated⟩ :=
      collect_related h (m := .empty) (n := .empty) .nil hentries
    split at ho
    · cases ho
    · rename_i hknown
      split at ho
      · cases ho
      · rename_i hvalues
        cases ho
        refine ⟨⟨entries'⟩, ?_, hrelated⟩
        have hkeys : unknownKey? table entries' = none := by
          unfold unknownKey? at hknown ⊢
          rw [OrderedMap.keys, hrelated.keys_eq]
          exact hknown
        simp only [ofPairs, hentries', hkeys, checkValues_related hrelated htakes hvalues]

/-- Options that agree but for the condition come to the same parts. -/
theorem eq_but_on {o o' : JoinOptions}
    (h : PairsRelated (fun key v w => key ≠ "on" → w = v) o.entries.entries o'.entries.entries) :
    o'.alias? = o.alias? ∧ o'.tablePrefix? = o.tablePrefix? ∧ o'.hints? = o.hints? ∧
      o'.extensions = o.extensions := by
  have hget : ∀ key, key ≠ "on" → o'.entries.get? key = o.entries.get? key := by
    intro key hkey
    rcases h.lookup_cases key with ⟨hv, hw⟩ | ⟨v, w, hv, hw, hsame⟩
    · exact hw.trans hv.symm
    · rw [hsame hkey] at hw
      exact hw.trans hv.symm
  refine ⟨?_, ?_, ?_, ?_⟩
  · rw [alias?, alias?, hget "as" (by decide)]
  · rw [tablePrefix?, tablePrefix?, hget "prefix" (by decide)]
  · rw [hints?, hints?, hget "hints" (by decide)]
  · refine OrderedMap.ext_entries (PairsRelated.eq_of_eq (h.filterMapList ?_))
    intro key v w hsame
    by_cases hcore : coreNames.contains key
    · exact .inl ⟨if_pos hcore, if_pos hcore⟩
    · have hkey : key ≠ "on" := by
        rintro rfl
        exact hcore rfl
      rw [hsame hkey, if_neg hcore]
      cases v.stagedValue? with
      | none => exact .inl ⟨rfl, rfl⟩
      | some value => exact .inr ⟨value, value, rfl, rfl, rfl⟩

end JoinOptions

/-! ## Settings that do not tell two values apart -/

/-- Each specification of the key in the settings takes both values or neither. -/
def Config.TakesAlike (c : Config) (key : String) (e e' : Expr) : Prop :=
  ∀ spec ∈ c.options, spec.name = key → spec.takes e = spec.takes e'

theorem Config.TakesAlike.symm {c : Config} {key : String} {e e' : Expr}
    (h : c.TakesAlike key e e') : c.TakesAlike key e' e :=
  fun spec hspec hname => (h spec hspec hname).symm

/-- The core specification of the condition takes anything, so only the settings have a say in what
may stand for it. -/
theorem Config.TakesAlike.takes_on {c : Config} {e e' : Expr} (h : c.TakesAlike "on" e e')
    {spec : OptionSpec} (hs : spec ∈ c.optionTable) (hname : spec.name = "on")
    (htakes : spec.takes e = true) : spec.takes e' = true := by
  rcases List.mem_append.mp hs with hcore | hown
  · simp only [JoinOptions.coreTable, List.mem_cons, List.not_mem_nil, or_false] at hcore
    rcases hcore with rfl | rfl | rfl | rfl
    · rfl
    all_goals exact absurd hname (by decide)
  · exact h spec hown hname ▸ htakes

end StagedJoin
