/-!
# Ordered maps

A map from texts to values that remembers in which order its keys came. Writing a key that is
present keeps its place, a new key goes to the end, and removing a key keeps the order of the rest.
The keys are distinct by construction.
-/
namespace IniCompose

/-- Distinct keys with their values, in order. -/
structure OrderedMap (α : Type) where
  entries : List (String × α)
  nodup_keys : (entries.map Prod.fst).Nodup
  deriving DecidableEq

namespace OrderedMap

variable {α : Type}

/-! ## Lists of entries -/

/-- Replaces the value of the first entry with key `k`, or appends an entry. -/
def putEntry (k : String) (v : α) : List (String × α) → List (String × α)
  | [] => [(k, v)]
  | entry :: rest => if entry.1 = k then (k, v) :: rest else entry :: putEntry k v rest

theorem map_fst_putEntry (k : String) (v : α) (entries : List (String × α)) :
    (putEntry k v entries).map Prod.fst =
      if k ∈ entries.map Prod.fst then entries.map Prod.fst
      else entries.map Prod.fst ++ [k] := by
  induction entries with
  | nil => simp [putEntry]
  | cons entry rest ih =>
    by_cases h : entry.1 = k
    · simp [putEntry, h]
    · have hne : ¬ k = entry.1 := fun e => h e.symm
      by_cases hk : k ∈ rest.map Prod.fst
      · rw [if_pos hk] at ih
        rw [if_pos (by simp [hk])]
        simp [putEntry, h, ih]
      · rw [if_neg hk] at ih
        rw [if_neg (by simp [hne, hk])]
        simp [putEntry, h, ih]

theorem nodup_putEntry (k : String) (v : α) {entries : List (String × α)}
    (h : (entries.map Prod.fst).Nodup) : ((putEntry k v entries).map Prod.fst).Nodup := by
  rw [map_fst_putEntry]
  split
  · exact h
  · rename_i hk
    refine List.nodup_append.2 ⟨h, by simp, ?_⟩
    rintro a ha b hb rfl
    exact hk (List.mem_singleton.1 hb ▸ ha)

theorem lookup_putEntry (k : String) (v : α) (entries : List (String × α)) (l : String) :
    (putEntry k v entries).lookup l = if l = k then some v else entries.lookup l := by
  induction entries with
  | nil =>
    by_cases h : l = k
    · simp [putEntry, h]
    · have hb : (l == k) = false := by simpa using h
      simp [putEntry, List.lookup_cons, hb, h]
  | cons entry rest ih =>
    obtain ⟨k', v'⟩ := entry
    by_cases hk : k' = k
    · subst hk
      by_cases h : l = k'
      · simp [putEntry, h]
      · have hb : (l == k') = false := by simpa using h
        simp [putEntry, List.lookup_cons, hb, h]
    · by_cases h : l = k
      · subst h
        have hb : (l == k') = false := by simpa using fun e => hk e.symm
        simp [putEntry, hk, List.lookup_cons, hb, ih]
      · simp [putEntry, hk, List.lookup_cons, ih, h]

/-! ## Maps -/

def empty : OrderedMap α := ⟨[], List.nodup_nil⟩

instance : EmptyCollection (OrderedMap α) := ⟨empty⟩
instance : Inhabited (OrderedMap α) := ⟨∅⟩

def keys (m : OrderedMap α) : List String := m.entries.map Prod.fst

def size (m : OrderedMap α) : Nat := m.entries.length

def isEmpty (m : OrderedMap α) : Bool := m.entries.isEmpty

def get? (m : OrderedMap α) (k : String) : Option α := m.entries.lookup k

def getD (m : OrderedMap α) (k : String) (default : α) : α := (m.get? k).getD default

def contains (m : OrderedMap α) (k : String) : Bool := (m.get? k).isSome

def insert (m : OrderedMap α) (k : String) (v : α) : OrderedMap α :=
  ⟨putEntry k v m.entries, nodup_putEntry k v m.nodup_keys⟩

def erase (m : OrderedMap α) (k : String) : OrderedMap α where
  entries := m.entries.filter fun entry => entry.1 ≠ k
  nodup_keys := m.nodup_keys.sublist (List.Sublist.map _ List.filter_sublist)

/-- Writes entries in order: of a repeated key the first place and the last value count. -/
def insertAll (m : OrderedMap α) (entries : List (String × α)) : OrderedMap α :=
  entries.foldl (fun m entry => m.insert entry.1 entry.2) m

def ofList (entries : List (String × α)) : OrderedMap α := insertAll ∅ entries

/-- Whether two maps hold the same entries in whatever order. -/
def sameEntries [DecidableEq α] (m n : OrderedMap α) : Bool :=
  m.size == n.size && m.entries.all fun entry => n.get? entry.1 == some entry.2

/-! ## What the operations do to the entries and to look-up -/

theorem ext_entries {m n : OrderedMap α} (h : m.entries = n.entries) : m = n := by
  cases m; cases n; cases h; rfl

@[simp] theorem entries_empty : (∅ : OrderedMap α).entries = [] := rfl
@[simp] theorem keys_empty : (∅ : OrderedMap α).keys = [] := rfl
@[simp] theorem size_empty : (∅ : OrderedMap α).size = 0 := rfl
@[simp] theorem get?_empty (k : String) : (∅ : OrderedMap α).get? k = none := rfl
@[simp] theorem contains_empty (k : String) : (∅ : OrderedMap α).contains k = false := rfl

theorem keys_nodup (m : OrderedMap α) : m.keys.Nodup := m.nodup_keys

@[simp] theorem length_keys (m : OrderedMap α) : m.keys.length = m.size := by simp [keys, size]

theorem contains_iff_mem_keys {m : OrderedMap α} {k : String} :
    m.contains k = true ↔ k ∈ m.keys := by
  obtain ⟨entries, h⟩ := m
  simp only [contains, get?, keys]
  clear h
  induction entries with
  | nil => simp
  | cons entry rest ih =>
    obtain ⟨k', v⟩ := entry
    by_cases hk : k = k'
    · simp [hk]
    · have : (k == k') = false := by simpa using hk
      simp [List.lookup_cons, this, hk, ih]

theorem get?_eq_none_iff {m : OrderedMap α} {k : String} : m.get? k = none ↔ k ∉ m.keys := by
  rw [← contains_iff_mem_keys, contains]
  cases m.get? k <;> simp

@[simp] theorem get?_insert (m : OrderedMap α) (k l : String) (v : α) :
    (m.insert k v).get? l = if l = k then some v else m.get? l :=
  lookup_putEntry k v m.entries l

theorem keys_insert (m : OrderedMap α) (k : String) (v : α) :
    (m.insert k v).keys = if k ∈ m.keys then m.keys else m.keys ++ [k] :=
  map_fst_putEntry k v m.entries

theorem entries_insert_of_notMem {m : OrderedMap α} {k : String} (v : α) (h : k ∉ m.keys) :
    (m.insert k v).entries = m.entries ++ [(k, v)] := by
  obtain ⟨entries, nodup⟩ := m
  simp only [insert, keys] at h ⊢
  clear nodup
  induction entries with
  | nil => rfl
  | cons entry rest ih =>
    simp only [List.map_cons, List.mem_cons, not_or] at h
    have hne : ¬ entry.1 = k := fun e => h.1 e.symm
    simp [putEntry, hne, ih h.2]

@[simp] theorem entries_erase (m : OrderedMap α) (k : String) :
    (m.erase k).entries = m.entries.filter fun entry => entry.1 ≠ k := rfl

@[simp] theorem insertAll_nil (m : OrderedMap α) : m.insertAll [] = m := rfl

@[simp] theorem insertAll_cons (m : OrderedMap α) (entry : String × α)
    (entries : List (String × α)) :
    m.insertAll (entry :: entries) = (m.insert entry.1 entry.2).insertAll entries := rfl

end OrderedMap

end IniCompose
