import IniCompose.OrderedMap
import Mathlib.Data.List.Basic

/-!
# The entries of a map

What is found in a map is one of its entries, and an entry of a map that is written to is either an
old one or the one that is written.
-/
namespace IniCompose.OrderedMap

variable {α : Type} {m : OrderedMap α} {k : String}

theorem mem_entries_of_get? {v : α} (h : m.get? k = some v) : (k, v) ∈ m.entries := by
  obtain ⟨before, later, hentries, -⟩ := List.lookup_eq_some_iff.1 h
  simp [hentries]

theorem get?_of_mem_entries {v : α} (h : (k, v) ∈ m.entries) : m.get? k = some v := by
  obtain ⟨before, later, hentries⟩ := List.append_of_mem h
  refine List.lookup_eq_some_iff.2 ⟨before, later, hentries, fun entry hentry => ?_⟩
  have hnodup := m.nodup_keys
  rw [hentries, List.map_append, List.map_cons] at hnodup
  have hne := (List.nodup_append.1 hnodup).2.2 entry.1 (List.mem_map_of_mem hentry) k (by simp)
  simpa using fun e => hne e.symm

theorem entries_eq_filterMap (m : OrderedMap α) :
    m.entries = m.keys.filterMap fun k => (m.get? k).map (k, ·) := by
  have hfound : ∀ entry ∈ m.entries,
      ((fun k => (m.get? k).map (k, ·)) ∘ Prod.fst) entry = some entry := by
    intro entry hentry
    simp [get?_of_mem_entries hentry]
  rw [keys, List.filterMap_map, List.filterMap_congr hfound, List.filterMap_some]

/-- Maps with the same keys in the same order and with the same values are the same. -/
theorem ext_get? {n : OrderedMap α} (hkeys : m.keys = n.keys)
    (hget : ∀ k ∈ m.keys, m.get? k = n.get? k) : m = n := by
  refine ext_entries ?_
  rw [entries_eq_filterMap, entries_eq_filterMap n, ← hkeys]
  refine List.filterMap_congr fun k hk => ?_
  rw [hget k hk]

theorem mem_putEntry {v : α} {entries : List (String × α)} {entry : String × α}
    (h : entry ∈ putEntry k v entries) : entry = (k, v) ∨ entry ∈ entries := by
  induction entries with
  | nil => exact .inl (by simpa [putEntry] using h)
  | cons first rest ih =>
    unfold putEntry at h
    split at h
    · rcases List.mem_cons.1 h with rfl | h
      · exact .inl rfl
      · exact .inr (List.mem_cons_of_mem _ h)
    · rcases List.mem_cons.1 h with rfl | h
      · exact .inr List.mem_cons_self
      · exact (ih h).imp_right (List.mem_cons_of_mem _)

theorem mem_entries_insert {v : α} {entry : String × α} (h : entry ∈ (m.insert k v).entries) :
    entry = (k, v) ∨ entry ∈ m.entries := mem_putEntry h

theorem mem_entries_insertAll {entries : List (String × α)} {entry : String × α}
    (h : entry ∈ (m.insertAll entries).entries) : entry ∈ m.entries ∨ entry ∈ entries := by
  induction entries generalizing m with
  | nil => exact .inl h
  | cons first rest ih =>
    rw [insertAll_cons] at h
    rcases ih h with hinsert | hrest
    · rcases mem_entries_insert hinsert with rfl | hold
      · exact .inr List.mem_cons_self
      · exact .inl hold
    · exact .inr (List.mem_cons_of_mem _ hrest)

/-- Writing new entries with distinct keys appends them. -/
theorem entries_insertAll_of_nodup {entries : List (String × α)}
    (h : (m.keys ++ entries.map Prod.fst).Nodup) :
    (m.insertAll entries).entries = m.entries ++ entries := by
  induction entries generalizing m with
  | nil => simp
  | cons first rest ih =>
    have hnew : first.1 ∉ m.keys := by
      intro hmem
      exact (List.nodup_append.1 h).2.2 _ hmem first.1 (by simp) rfl
    have hkeys : (m.insert first.1 first.2).keys = m.keys ++ [first.1] := by
      rw [keys_insert, if_neg hnew]
    rw [insertAll_cons, ih (by simpa [hkeys] using h), entries_insert_of_notMem _ hnew]
    simp

/-- A map is made by writing its entries in order. -/
@[simp] theorem ofList_entries (m : OrderedMap α) : ofList m.entries = m := by
  refine ext_entries ?_
  rw [ofList, entries_insertAll_of_nodup (by simpa using m.nodup_keys)]
  simp

/-! ## Totals -/

/-- The sum of a measure over the values of entries. -/
def sumValues (f : α → Nat) : List (String × α) → Nat
  | [] => 0
  | entry :: rest => f entry.2 + sumValues f rest

/-- The sum of a measure over the values of a map. -/
def total (f : α → Nat) (m : OrderedMap α) : Nat := sumValues f m.entries

theorem sumValues_putEntry (f : α → Nat) (k : String) (v : α) (entries : List (String × α)) :
    sumValues f (putEntry k v entries) + (entries.lookup k).elim 0 f =
      sumValues f entries + f v := by
  induction entries with
  | nil => simp [putEntry, sumValues]
  | cons first rest ih =>
    obtain ⟨k', w⟩ := first
    by_cases h : k' = k
    · subst h
      simp only [putEntry, if_true, sumValues, List.lookup_cons, beq_self_eq_true, Option.elim_some]
      omega
    · have hne : (k == k') = false := by simpa using fun e : k = k' => h e.symm
      simp only [putEntry, h, if_false, sumValues, List.lookup_cons, hne]
      omega

/-- Writing a value adds its measure and takes away that of the value it replaces. -/
theorem total_insert (f : α → Nat) (m : OrderedMap α) (k : String) (v : α) :
    (m.insert k v).total f + (m.get? k).elim 0 f = m.total f + f v :=
  sumValues_putEntry f k v m.entries

end IniCompose.OrderedMap
