/-!
Finite maps with string keys that remember the order in which their keys were
first inserted. A key that is inserted again keeps its place and takes the new
value. Looking a key up after an insertion gives the inserted value at that key
and the old value elsewhere.
-/
namespace StagedJoin

structure OrderedMap (α : Type) where
  entries : List (String × α)
  distinct : (entries.map Prod.fst).Nodup
  deriving DecidableEq

namespace OrderedMap

variable {α β ε : Type}

def keys (m : OrderedMap α) : List String := m.entries.map Prod.fst

def get? (m : OrderedMap α) (key : String) : Option α := m.entries.lookup key

def contains (m : OrderedMap α) (key : String) : Bool := (m.get? key).isSome

def empty : OrderedMap α := ⟨[], List.nodup_nil⟩

instance : Inhabited (OrderedMap α) := ⟨empty⟩

/-- Replaces the value at a key that occurs and adds a new key at the end. -/
def put (key : String) (value : α) : List (String × α) → List (String × α)
  | [] => [(key, value)]
  | (k, v) :: rest => if k = key then (k, value) :: rest else (k, v) :: put key value rest

theorem mem_keys_put (key k : String) (value : α) (es : List (String × α)) :
    k ∈ (put key value es).map Prod.fst ↔ k = key ∨ k ∈ es.map Prod.fst := by
  induction es with
  | nil => simp [put]
  | cons e es ih =>
    obtain ⟨k', v⟩ := e
    by_cases h : k' = key
    · subst h
      simp [put]
    · rw [put, if_neg h, List.map_cons, List.map_cons, List.mem_cons, List.mem_cons, ih]
      exact or_left_comm

theorem nodup_put (key : String) (value : α) (es : List (String × α))
    (h : (es.map Prod.fst).Nodup) : ((put key value es).map Prod.fst).Nodup := by
  induction es with
  | nil => simp [put]
  | cons e es ih =>
    obtain ⟨k', v⟩ := e
    rw [List.map_cons, List.nodup_cons] at h
    by_cases hk : k' = key
    · simpa [put, hk] using h
    · rw [put, if_neg hk, List.map_cons, List.nodup_cons, mem_keys_put]
      exact ⟨fun hm => hm.elim hk h.1, ih h.2⟩

def insert (m : OrderedMap α) (key : String) (value : α) : OrderedMap α :=
  ⟨put key value m.entries, nodup_put key value m.entries m.distinct⟩

/-- Inserts the pairs from left to right. -/
def ofList (pairs : List (String × α)) : OrderedMap α :=
  pairs.foldl (fun m p => m.insert p.1 p.2) empty

def erase (m : OrderedMap α) (key : String) : OrderedMap α :=
  ⟨m.entries.filter (fun e => e.1 ≠ key),
    m.distinct.sublist (List.filter_sublist.map Prod.fst)⟩

/-- Keeps, in order, the entries that `f` gives a value. -/
def filterMapList (f : String → α → Option β) : List (String × α) → List (String × β)
  | [] => []
  | (k, v) :: rest =>
    match f k v with
    | some w => (k, w) :: filterMapList f rest
    | none => filterMapList f rest

theorem keys_filterMapList_sublist (f : String → α → Option β) (es : List (String × α)) :
    ((filterMapList f es).map Prod.fst).Sublist (es.map Prod.fst) := by
  induction es with
  | nil => exact List.Sublist.refl _
  | cons e es ih =>
    obtain ⟨k, v⟩ := e
    rw [filterMapList]
    cases f k v with
    | none => exact ih.cons _
    | some w => exact ih.cons_cons _

def filterMap (f : String → α → Option β) (m : OrderedMap α) : OrderedMap β :=
  ⟨filterMapList f m.entries, m.distinct.sublist (keys_filterMapList_sublist f m.entries)⟩

/-- Gives every entry a value, in order, and stops at the first failure. -/
def traverseList (f : String → α → Except ε β) :
    List (String × α) → Except ε (List (String × β))
  | [] => .ok []
  | (k, v) :: rest =>
    match f k v with
    | .error e => .error e
    | .ok w =>
      match traverseList f rest with
      | .error e => .error e
      | .ok ws => .ok ((k, w) :: ws)

theorem keys_of_traverseList {f : String → α → Except ε β} {es : List (String × α)}
    {ws : List (String × β)} (h : traverseList f es = .ok ws) :
    ws.map Prod.fst = es.map Prod.fst := by
  induction es generalizing ws with
  | nil => simp [traverseList] at h; simp [← h]
  | cons e es ih =>
    obtain ⟨k, v⟩ := e
    simp only [traverseList] at h
    split at h
    · cases h
    · split at h
      · cases h
      · rename_i hs
        cases h
        simp [ih hs]

def traverse (f : String → α → Except ε β) (m : OrderedMap α) : Except ε (OrderedMap β) :=
  match h : traverseList f m.entries with
  | .error e => .error e
  | .ok ws => .ok ⟨ws, keys_of_traverseList h ▸ m.distinct⟩

def size (m : OrderedMap α) : Nat := m.entries.length

def isEmpty (m : OrderedMap α) : Bool := m.entries.isEmpty

@[simp] theorem get?_empty (key : String) : (empty : OrderedMap α).get? key = none := rfl

@[simp] theorem contains_eq_isSome (m : OrderedMap α) (key : String) :
    m.contains key = (m.get? key).isSome := rfl

theorem lookup_put (key k : String) (value : α) (es : List (String × α)) :
    (put key value es).lookup k = if k = key then some value else es.lookup k := by
  induction es with
  | nil => grind [put]
  | cons e es ih => obtain ⟨k', v⟩ := e; grind [put]

theorem get?_insert (m : OrderedMap α) (key k : String) (value : α) :
    (m.insert key value).get? k = if k = key then some value else m.get? k :=
  lookup_put key k value m.entries

@[simp] theorem get?_insert_self (m : OrderedMap α) (key : String) (value : α) :
    (m.insert key value).get? key = some value := by simp [get?_insert]

theorem put_of_not_mem (key : String) (value : α) (es : List (String × α))
    (h : key ∉ es.map Prod.fst) : put key value es = es ++ [(key, value)] := by
  induction es with
  | nil => rfl
  | cons e es ih =>
    obtain ⟨k, v⟩ := e
    simp only [List.map_cons, List.mem_cons, not_or] at h
    rw [put, if_neg (Ne.symm h.1), ih h.2, List.cons_append]

theorem get?_eq_none_iff (m : OrderedMap α) (key : String) :
    m.get? key = none ↔ key ∉ m.keys := by
  rw [get?, List.lookup_eq_none_iff, keys]
  grind

/-- A new key goes to the end. -/
theorem entries_insert_of_get?_none (m : OrderedMap α) (key : String) (value : α)
    (h : m.get? key = none) : (m.insert key value).entries = m.entries ++ [(key, value)] :=
  put_of_not_mem key value m.entries ((m.get?_eq_none_iff key).1 h)

end OrderedMap

end StagedJoin
