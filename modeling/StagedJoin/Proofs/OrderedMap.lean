import StagedJoin.OrderedMap

/-!
Entries of ordered maps, and maps that extend others. An entry is found under its
key, so a statement about entries is one about lookups.
-/
namespace StagedJoin.OrderedMap

variable {α : Type} {m n : OrderedMap α} {key : String} {value : α}

theorem lookup_eq_some_of_mem {es : List (String × α)} (hd : (es.map Prod.fst).Nodup)
    (h : (key, value) ∈ es) : es.lookup key = some value := by
  obtain ⟨front, rest, rfl⟩ := List.append_of_mem h
  refine List.lookup_eq_some_iff.mpr ⟨front, rest, rfl, fun e he => ?_⟩
  rw [List.map_append, List.nodup_append] at hd
  exact bne_iff_ne.mpr (hd.2.2 _ (List.mem_map_of_mem he) _ List.mem_cons_self).symm

theorem mem_of_lookup_eq_some {es : List (String × α)} (h : es.lookup key = some value) :
    (key, value) ∈ es := by
  obtain ⟨front, rest, rfl, -⟩ := List.lookup_eq_some_iff.mp h
  exact List.mem_append_right _ List.mem_cons_self

theorem mem_entries_iff : (key, value) ∈ m.entries ↔ m.get? key = some value :=
  ⟨lookup_eq_some_of_mem m.distinct, mem_of_lookup_eq_some⟩

@[ext] theorem ext_entries {m n : OrderedMap α} (h : m.entries = n.entries) : m = n := by
  obtain ⟨es, hm⟩ := m
  obtain ⟨es', hn⟩ := n
  cases h
  rfl

/-- What holds of every entry and of a new one holds of every entry after the insertion. -/
theorem forall_entries_insert {P : α → Prop} (hm : ∀ e ∈ m.entries, P e.2) (hv : P value) :
    ∀ e ∈ (m.insert key value).entries, P e.2 := by
  rintro ⟨k, v⟩ he
  rw [mem_entries_iff, get?_insert] at he
  split at he
  · cases he
    exact hv
  · exact hm _ (mem_entries_iff.mpr he)

theorem get?_erase (m : OrderedMap α) (erased key : String) :
    (m.erase erased).get? key = if key = erased then none else m.get? key := by
  refine Option.ext fun value => ?_
  rw [← mem_entries_iff, erase, List.mem_filter, decide_eq_true_iff, mem_entries_iff]
  split <;> simp_all

/-- Maps are traversed alike when their entries are. -/
theorem traverse_eq_of_entries {β γ ε : Type} {n : OrderedMap β} {f : String → α → Except ε γ}
    {g : String → β → Except ε γ} (h : traverseList g n.entries = traverseList f m.entries) :
    n.traverse g = m.traverse f := by
  unfold traverse
  split <;> split <;> simp_all

theorem traverse_congr {β ε : Type} {f g : String → α → Except ε β}
    (h : ∀ e ∈ m.entries, f e.1 e.2 = g e.1 e.2) : m.traverse f = m.traverse g := by
  refine traverse_eq_of_entries ?_
  generalize m.entries = es at h
  induction es with
  | nil => rfl
  | cons e rest ih =>
    rw [traverseList, traverseList, h e List.mem_cons_self,
      ih fun e he => h e (List.mem_cons_of_mem _ he)]

/-- The same keys with other values. -/
def mapValues {β : Type} (f : α → β) (m : OrderedMap α) : OrderedMap β :=
  ⟨m.entries.map fun e => (e.1, f e.2), by
    rw [List.map_map]
    exact m.distinct⟩

theorem get?_mapValues {β : Type} (f : α → β) (m : OrderedMap α) (key : String) :
    (m.mapValues f).get? key = (m.get? key).map f := by
  change (m.entries.map fun e => (e.1, f e.2)).lookup key = (m.entries.lookup key).map f
  induction m.entries with
  | nil => rfl
  | cons e rest ih =>
    rw [List.map_cons, List.lookup_cons, List.lookup_cons, ih]
    split <;> rfl

/-- Pairs with new keys that differ from each other go to the end in their order. -/
theorem entries_foldl_insert {pairs : List (String × α)} {m : OrderedMap α}
    (hd : (m.keys ++ pairs.map Prod.fst).Nodup) :
    (pairs.foldl (fun m p => m.insert p.1 p.2) m).entries = m.entries ++ pairs := by
  induction pairs generalizing m with
  | nil => exact (List.append_nil _).symm
  | cons pair rest ih =>
    have hnew : m.get? pair.1 = none := by
      rw [get?_eq_none_iff]
      intro hm
      rw [List.map_cons, List.nodup_append] at hd
      exact hd.2.2 _ hm _ List.mem_cons_self rfl
    have hentries := entries_insert_of_get?_none m pair.1 pair.2 hnew
    have hkeys : (m.insert pair.1 pair.2).keys ++ rest.map Prod.fst =
        m.keys ++ (pair :: rest).map Prod.fst := by
      rw [keys, hentries]
      simp [keys]
    rw [List.foldl_cons, ih (hkeys ▸ hd), hentries, List.append_assoc]
    rfl

/-- The pairs of a map make up the map. -/
theorem ofList_entries (m : OrderedMap α) : ofList m.entries = m :=
  ext_entries (entries_foldl_insert (by simpa [keys, empty] using m.distinct))

/-- Every key of `m` has the same value in `n`. -/
def Extends (n m : OrderedMap α) : Prop :=
  ∀ key value, m.get? key = some value → n.get? key = some value

theorem Extends.refl (m : OrderedMap α) : Extends m m := fun _ _ h => h

/-- A name that is free stays free where less is known. -/
theorem Extends.get?_eq_none (h : n.Extends m) (hkey : n.get? key = none) : m.get? key = none := by
  cases hget : m.get? key with
  | none => rfl
  | some value => exact (h key value hget).symm.trans hkey

theorem Extends.trans {l m n : OrderedMap α} (hn : n.Extends m) (hm : m.Extends l) : n.Extends l :=
  fun key value h => hn key value (hm key value h)

/-- Inserting the same pair keeps an extension. -/
theorem Extends.insert (h : n.Extends m) (key : String) (value : α) :
    (n.insert key value).Extends (m.insert key value) := by
  intro k v hk
  rw [get?_insert] at hk ⊢
  split at hk
  · rwa [if_pos ‹_›]
  · rw [if_neg ‹_›]
    exact h k v hk

/-- A new key extends the map. -/
theorem extends_insert (h : m.get? key = none) (value : α) : (m.insert key value).Extends m := by
  intro k v hk
  have hne : k ≠ key := by
    rintro rfl
    rw [h] at hk
    cases hk
  rw [get?_insert, if_neg hne]
  exact hk

end StagedJoin.OrderedMap
