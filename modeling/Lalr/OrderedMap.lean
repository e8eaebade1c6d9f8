/-! Finite maps that remember the order in which their keys were first inserted. Everything
the generator prints or numbers follows that order, so no output depends on how keys are
compared. The view is `toList`. -/
namespace Lalr

/-- Entries in insertion order, one for each key. -/
structure OrderedMap (κ : Type u) (α : Type v) where
  toList : List (κ × α)
  nodup : (toList.map Prod.fst).Nodup

namespace OrderedMap

variable {κ : Type u} {α : Type v}

instance [DecidableEq κ] [DecidableEq α] : DecidableEq (OrderedMap κ α) := fun a b =>
  if h : a.toList = b.toList then isTrue (by cases a; cases b; simp_all)
  else isFalse fun e => h (congrArg toList e)

def empty : OrderedMap κ α := ⟨[], by simp⟩

instance : EmptyCollection (OrderedMap κ α) := ⟨empty⟩

instance : Inhabited (OrderedMap κ α) := ⟨empty⟩

def keys (m : OrderedMap κ α) : List κ := m.toList.map Prod.fst

def values (m : OrderedMap κ α) : List α := m.toList.map Prod.snd

def size (m : OrderedMap κ α) : Nat := m.toList.length

def isEmpty (m : OrderedMap κ α) : Bool := m.toList.isEmpty

@[simp] theorem toList_empty : (∅ : OrderedMap κ α).toList = [] := rfl

@[simp] theorem keys_empty : (∅ : OrderedMap κ α).keys = [] := rfl

theorem keys_nodup (m : OrderedMap κ α) : m.keys.Nodup := m.nodup

theorem length_keys (m : OrderedMap κ α) : m.keys.length = m.size := List.length_map _

/-- Insert an entry into entries sorted by key, in front of those whose keys are equal. -/
def insertByKey [Ord κ] (e : κ × α) : List (κ × α) → List (κ × α)
  | [] => [e]
  | f :: rest => if (compare e.1 f.1).isLE then e :: f :: rest else f :: insertByKey e rest

theorem insertByKey_perm [Ord κ] (e : κ × α) (entries : List (κ × α)) :
    (insertByKey e entries).Perm (e :: entries) := by
  induction entries with
  | nil => exact .refl _
  | cons f rest ih =>
    rw [insertByKey]
    split
    · exact .refl _
    · exact (ih.cons f).trans (.swap e f rest)

theorem foldr_insertByKey_perm [Ord κ] (entries : List (κ × α)) :
    (entries.foldr insertByKey []).Perm entries := by
  induction entries with
  | nil => exact .refl _
  | cons e rest ih => exact (insertByKey_perm e _).trans (ih.cons e)

def sortKeys [Ord κ] (m : OrderedMap κ α) : OrderedMap κ α where
  toList := m.toList.foldr insertByKey []
  nodup := ((foldr_insertByKey_perm m.toList).map Prod.fst).nodup_iff.2 m.nodup

def mapValues (f : κ → α → β) (m : OrderedMap κ α) : OrderedMap κ β where
  toList := m.toList.map fun e => (e.1, f e.1 e.2)
  nodup := by simpa [Function.comp_def] using m.nodup

@[simp] theorem keys_mapValues (f : κ → α → β) (m : OrderedMap κ α) :
    (m.mapValues f).keys = m.keys := by
  simp [keys, mapValues, Function.comp_def]

variable [DecidableEq κ]

def lookup (k : κ) : List (κ × α) → Option α
  | [] => none
  | (k', a) :: rest => if k = k' then some a else lookup k rest

def get? (m : OrderedMap κ α) (k : κ) : Option α := lookup k m.toList

def contains (m : OrderedMap κ α) (k : κ) : Bool := (m.get? k).isSome

def put (k : κ) (a : α) : List (κ × α) → List (κ × α)
  | [] => [(k, a)]
  | (k', b) :: rest => if k = k' then (k', a) :: rest else (k', b) :: put k a rest

theorem map_fst_put (k : κ) (a : α) (entries : List (κ × α)) :
    (put k a entries).map Prod.fst =
      if k ∈ entries.map Prod.fst then entries.map Prod.fst
      else entries.map Prod.fst ++ [k] := by
  induction entries with
  | nil => simp [put]
  | cons e rest ih =>
    obtain ⟨k', b⟩ := e
    by_cases h : k = k'
    · simp [put, h]
    · simp only [put, h, if_false, List.map_cons, ih, List.mem_cons, false_or]
      split <;> simp

/-- A key that is present keeps its place. -/
def insert (m : OrderedMap κ α) (k : κ) (a : α) : OrderedMap κ α where
  toList := put k a m.toList
  nodup := by
    rw [map_fst_put]
    split
    · exact m.nodup
    next h =>
      rw [List.nodup_append]
      exact ⟨m.nodup, by simp, by grind⟩

def ofList (entries : List (κ × α)) : OrderedMap κ α :=
  entries.foldl (fun m e => m.insert e.1 e.2) empty

@[simp] theorem keys_insert (m : OrderedMap κ α) (k : κ) (a : α) :
    (m.insert k a).keys = if k ∈ m.keys then m.keys else m.keys ++ [k] :=
  map_fst_put k a m.toList

theorem mem_keys_insert {m : OrderedMap κ α} {k k' : κ} {a : α} :
    k' ∈ (m.insert k a).keys ↔ k' = k ∨ k' ∈ m.keys := by
  rw [keys_insert]
  split <;> grind

theorem size_insert_of_not_mem {m : OrderedMap κ α} {k : κ} (new : k ∉ m.keys) (a : α) :
    (m.insert k a).size = m.size + 1 := by
  rw [← length_keys, keys_insert, if_neg new, List.length_append, length_keys,
    List.length_singleton]

theorem lookup_put (k k' : κ) (a : α) (entries : List (κ × α)) :
    lookup k' (put k a entries) = if k' = k then some a else lookup k' entries := by
  induction entries with
  | nil => simp [put, lookup]
  | cons e rest ih =>
    obtain ⟨j, b⟩ := e
    by_cases h : k = j <;> by_cases h' : k' = j <;> grind [put, lookup]

theorem get?_insert (m : OrderedMap κ α) (k k' : κ) (a : α) :
    (m.insert k a).get? k' = if k' = k then some a else m.get? k' :=
  lookup_put k k' a m.toList

theorem lookup_isSome_iff (k : κ) (entries : List (κ × α)) :
    (lookup k entries).isSome = true ↔ k ∈ entries.map Prod.fst := by
  induction entries with
  | nil => simp [lookup]
  | cons e rest ih =>
    obtain ⟨j, b⟩ := e
    by_cases h : k = j <;> simp [lookup, h, ih]

@[simp] theorem contains_iff (m : OrderedMap κ α) (k : κ) : m.contains k = true ↔ k ∈ m.keys :=
  lookup_isSome_iff k m.toList

theorem isSome_get?_iff {m : OrderedMap κ α} {k : κ} : (m.get? k).isSome = true ↔ k ∈ m.keys :=
  lookup_isSome_iff k m.toList

@[simp] theorem get?_empty (k : κ) : (∅ : OrderedMap κ α).get? k = none := rfl

theorem mem_keys_iff {m : OrderedMap κ α} {k : κ} : k ∈ m.keys ↔ ∃ a, m.get? k = some a := by
  rw [← isSome_get?_iff, Option.isSome_iff_exists]

theorem get?_eq_none_iff {m : OrderedMap κ α} {k : κ} : m.get? k = none ↔ k ∉ m.keys := by
  rw [← isSome_get?_iff]
  simp

theorem mem_keys_of_get? {m : OrderedMap κ α} {k : κ} {a : α} (h : m.get? k = some a) :
    k ∈ m.keys := mem_keys_iff.2 ⟨a, h⟩

theorem lookup_eq_some_iff {k : κ} {a : α} {entries : List (κ × α)}
    (nodup : (entries.map Prod.fst).Nodup) : lookup k entries = some a ↔ (k, a) ∈ entries := by
  induction entries with
  | nil => simp [lookup]
  | cons e rest ih =>
    obtain ⟨j, b⟩ := e
    rw [List.map_cons, List.nodup_cons] at nodup
    by_cases h : k = j
    · subst h
      have : (k, a) ∉ rest := fun member => nodup.1 (List.mem_map.2 ⟨_, member, rfl⟩)
      simp [lookup, this, eq_comm]
    · simp [lookup, h, ih nodup.2]

/-- The view `get?` says what `toList` holds. -/
theorem mem_toList_iff {m : OrderedMap κ α} {k : κ} {a : α} :
    (k, a) ∈ m.toList ↔ m.get? k = some a := (lookup_eq_some_iff m.nodup).symm

theorem mem_values_iff {m : OrderedMap κ α} {a : α} : a ∈ m.values ↔ ∃ k, m.get? k = some a := by
  simp [values, mem_toList_iff]

theorem get?_mapValues (f : κ → α → β) (m : OrderedMap κ α) (k : κ) :
    (m.mapValues f).get? k = (m.get? k).map (f k) := by
  change lookup k (m.toList.map _) = (lookup k m.toList).map (f k)
  induction m.toList with
  | nil => rfl
  | cons e rest ih =>
    obtain ⟨j, b⟩ := e
    by_cases h : k = j
    · simp [lookup, h]
    · simp [lookup, h, ih]

theorem get?_sortKeys [Ord κ] (m : OrderedMap κ α) (k : κ) : m.sortKeys.get? k = m.get? k := by
  ext a
  rw [← mem_toList_iff, ← mem_toList_iff]
  exact (foldr_insertByKey_perm m.toList).mem_iff

theorem mem_keys_sortKeys [Ord κ] {m : OrderedMap κ α} {k : κ} :
    k ∈ m.sortKeys.keys ↔ k ∈ m.keys := by
  rw [mem_keys_iff, mem_keys_iff]
  simp only [get?_sortKeys]

omit [DecidableEq κ] in
theorem pairwise_insertByKey [Ord κ] [Std.TransOrd κ] [Std.LawfulEqOrd κ] (e : κ × α)
    {entries : List (κ × α)} (fresh : ∀ f ∈ entries, e.1 ≠ f.1)
    (sorted : entries.Pairwise (compare ·.1 ·.1 = .lt)) :
    (insertByKey e entries).Pairwise (compare ·.1 ·.1 = .lt) := by
  induction entries with
  | nil => simp [insertByKey]
  | cons f rest ih =>
    obtain ⟨here, others⟩ := List.forall_mem_cons.1 fresh
    have tail := List.pairwise_cons.1 sorted
    rw [insertByKey]
    cases order : compare e.1 f.1 with
    | lt =>
      refine List.pairwise_cons.2 ⟨fun d member => ?_, sorted⟩
      rcases List.mem_cons.1 member with rfl | member
      · exact order
      · exact Std.TransCmp.lt_trans order (tail.1 d member)
    | eq => exact absurd (Std.LawfulEqOrd.eq_of_compare order) here
    | gt =>
      refine List.pairwise_cons.2 ⟨fun d member => ?_, ih others tail.2⟩
      rcases List.mem_cons.1 ((insertByKey_perm e rest).mem_iff.1 member) with rfl | member
      · exact Std.OrientedCmp.lt_of_gt order
      · exact tail.1 d member

omit [DecidableEq κ] in
theorem pairwise_keys_sortKeys [Ord κ] [Std.TransOrd κ] [Std.LawfulEqOrd κ]
    (m : OrderedMap κ α) : m.sortKeys.keys.Pairwise (compare · · = .lt) := by
  have entries (l : List (κ × α)) (nodup : (l.map Prod.fst).Nodup) :
      (l.foldr insertByKey []).Pairwise (compare ·.1 ·.1 = .lt) := by
    induction l with
    | nil => simp
    | cons e rest ih =>
      rw [List.map_cons, List.nodup_cons] at nodup
      refine pairwise_insertByKey e (fun f member same => nodup.1 ?_) (ih nodup.2)
      exact List.mem_map.2 ⟨f, (foldr_insertByKey_perm rest).mem_iff.1 member, same.symm⟩
  exact List.pairwise_map.2 (entries m.toList m.nodup)

theorem put_of_not_mem {k : κ} (a : α) {entries : List (κ × α)} (h : k ∉ entries.map Prod.fst) :
    put k a entries = entries ++ [(k, a)] := by
  induction entries with
  | nil => rfl
  | cons e rest ih =>
    obtain ⟨j, b⟩ := e
    simp only [List.map_cons, List.mem_cons, not_or] at h
    simp [put, h.1, ih h.2]

theorem toList_foldl_insert (entries : List (κ × α)) (m : OrderedMap κ α)
    (nodup : ((m.toList ++ entries).map Prod.fst).Nodup) :
    (entries.foldl (fun m e => m.insert e.1 e.2) m).toList = m.toList ++ entries := by
  induction entries generalizing m with
  | nil => simp
  | cons e rest ih =>
    have fresh : e.1 ∉ m.toList.map Prod.fst := by
      rw [List.map_append, List.nodup_append] at nodup
      exact fun member => nodup.2.2 _ member _ (by simp) rfl
    have step : (m.insert e.1 e.2).toList = m.toList ++ [e] := put_of_not_mem e.2 fresh
    rw [List.foldl_cons, ih _ (by rw [step]; simpa using nodup), step]
    simp

/-- Entries with different keys are kept as they are. -/
theorem toList_ofList {entries : List (κ × α)} (nodup : (entries.map Prod.fst).Nodup) :
    (ofList entries).toList = entries := by
  rw [ofList, toList_foldl_insert entries empty (by simpa [empty] using nodup)]
  rfl

theorem get?_ofList {entries : List (κ × α)} (nodup : (entries.map Prod.fst).Nodup) {k : κ}
    {a : α} : (ofList entries).get? k = some a ↔ (k, a) ∈ entries := by
  rw [← mem_toList_iff, toList_ofList nodup]

theorem mem_or_get?_of_foldl_insert {entries : List (κ × α)} (m : OrderedMap κ α) {k : κ} {a : α}
    (entry : (entries.foldl (fun m e => m.insert e.1 e.2) m).get? k = some a) :
    (k, a) ∈ entries ∨ m.get? k = some a := by
  induction entries generalizing m with
  | nil => exact .inr entry
  | cons e rest ih =>
    rcases ih _ entry with member | entry
    · exact .inl (List.mem_cons_of_mem e member)
    · rw [get?_insert] at entry
      split at entry
      · next same =>
        cases entry
        exact .inl (same ▸ List.mem_cons_self)
      · exact .inr entry

/-- Where keys are repeated, an entry is still one of the list. -/
theorem mem_of_get?_ofList {entries : List (κ × α)} {k : κ} {a : α}
    (entry : (ofList entries).get? k = some a) : (k, a) ∈ entries :=
  (mem_or_get?_of_foldl_insert ∅ entry).resolve_right (by simp)

theorem mem_keys_foldl_insert (entries : List (κ × α)) (m : OrderedMap κ α) {k : κ} :
    k ∈ (entries.foldl (fun m e => m.insert e.1 e.2) m).keys ↔
      k ∈ m.keys ∨ k ∈ entries.map Prod.fst := by
  induction entries generalizing m with
  | nil => simp
  | cons e rest ih =>
    rw [List.foldl_cons, ih, mem_keys_insert, List.map_cons, List.mem_cons, ← or_assoc,
      or_comm (a := k = e.1)]

theorem mem_keys_ofList {entries : List (κ × α)} {k : κ} :
    k ∈ (ofList entries).keys ↔ k ∈ entries.map Prod.fst := by
  rw [ofList, mem_keys_foldl_insert]
  exact or_iff_right List.not_mem_nil

omit [DecidableEq κ] in
/-- A map with one key has one entry. -/
theorem toList_eq_singleton {m : OrderedMap κ α} {k : κ} (keys : ∀ j, j ∈ m.keys ↔ j = k) :
    ∃ a, m.toList = [(k, a)] := by
  obtain ⟨entries, nodup⟩ := m
  have all (e : κ × α) (member : e ∈ entries) : e.1 = k :=
    (keys e.1).1 (List.mem_map_of_mem member)
  match entries with
  | [] => exact absurd ((keys k).2 rfl) List.not_mem_nil
  | [e] =>
    obtain rfl := all e (List.mem_singleton_self e)
    exact ⟨e.2, rfl⟩
  | e :: e' :: rest =>
    have same : e.1 = e'.1 := (all e (by simp)).trans (all e' (by simp)).symm
    simp [same] at nodup

/-- Maps with the same keys in the same order and the same values are equal. -/
theorem eq_of_keys_eq {m n : OrderedMap κ α} (keys : m.keys = n.keys)
    (values : ∀ k, m.get? k = n.get? k) : m = n := by
  have entry (l : OrderedMap κ α) (i : Nat) (h : i < l.toList.length) :
      l.get? (l.toList[i].1) = some l.toList[i].2 := mem_toList_iff.1 (List.getElem_mem h)
  have length : m.toList.length = n.toList.length := by
    simpa [OrderedMap.keys] using congrArg List.length keys
  have lists : m.toList = n.toList := by
    apply List.ext_getElem length
    intro i hm hn
    have first : m.toList[i].1 = n.toList[i].1 := by
      have := List.getElem_of_eq keys (i := i) (by simpa [OrderedMap.keys] using hm)
      simpa [OrderedMap.keys] using this
    have second := entry m i hm
    rw [values, first, entry n i hn, Option.some.injEq] at second
    exact Prod.ext first second.symm
  cases m; cases n; simp_all

end OrderedMap
end Lalr
