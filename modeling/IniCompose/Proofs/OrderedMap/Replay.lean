import IniCompose.OrderedMap

/-!
# Writing the entries of a map into another

A map that was itself made by writing entries can be written into another map instead of the
entries: the places of the keys and the values come out the same. So a collapsed history stands for
the history.
-/
namespace IniCompose.OrderedMap

variable {α : Type}

/-! ## Two writes -/

theorem putEntry_putEntry_self (k : String) (v w : α) (entries : List (String × α)) :
    putEntry k w (putEntry k v entries) = putEntry k w entries := by
  induction entries with
  | nil => simp [putEntry]
  | cons entry rest ih => by_cases h : entry.1 = k <;> simp [putEntry, h, ih]

theorem putEntry_comm {k l : String} (hne : k ≠ l) (v w : α) {entries : List (String × α)}
    (hk : k ∈ entries.map Prod.fst) :
    putEntry k w (putEntry l v entries) = putEntry l v (putEntry k w entries) := by
  induction entries with
  | nil => simp at hk
  | cons entry rest ih =>
    by_cases hek : entry.1 = k
    · have hel : entry.1 ≠ l := hek ▸ hne
      simp [putEntry, hek, hne]
    · have hrest : k ∈ rest.map Prod.fst := by
        simpa [show ¬ k = entry.1 from fun e => hek e.symm] using hk
      by_cases hel : entry.1 = l
      · simp [putEntry, hel, hne.symm]
      · simp [putEntry, hek, hel, ih hrest]

theorem insert_insert_self (m : OrderedMap α) (k : String) (v w : α) :
    (m.insert k v).insert k w = m.insert k w :=
  ext_entries (putEntry_putEntry_self k v w m.entries)

/-- A key that is present keeps its place, so writing it again can wait or not. -/
theorem insert_insert_comm {m : OrderedMap α} {k l : String} (hk : k ∈ m.keys) (hne : k ≠ l)
    (v w : α) : (m.insert l v).insert k w = (m.insert k w).insert l v :=
  ext_entries (putEntry_comm hne v w hk)

/-! ## Many writes -/

theorem mem_keys_insert_self (m : OrderedMap α) (k : String) (v : α) : k ∈ (m.insert k v).keys := by
  rw [← contains_iff_mem_keys, contains, get?_insert]
  simp

theorem mem_keys_insert_of_mem {m : OrderedMap α} {k : String} (h : k ∈ m.keys) (l : String)
    (v : α) : k ∈ (m.insert l v).keys := by
  rw [keys_insert]
  split
  · exact h
  · exact List.mem_append_left _ h

theorem insert_insertAll_of_notMem {m : OrderedMap α} {k : String} (hk : k ∈ m.keys) (w : α)
    {entries : List (String × α)} (hentries : k ∉ entries.map Prod.fst) :
    (m.insertAll entries).insert k w = (m.insert k w).insertAll entries := by
  induction entries generalizing m with
  | nil => rfl
  | cons entry rest ih =>
    obtain ⟨hne, hrest⟩ : k ≠ entry.1 ∧ k ∉ rest.map Prod.fst := by simpa using hentries
    rw [insertAll_cons, insertAll_cons, ih (mem_keys_insert_of_mem hk _ _) hrest,
      insert_insert_comm hk hne]

theorem insertAll_putEntry (m : OrderedMap α) (k : String) (v : α) {entries : List (String × α)}
    (hnodup : (entries.map Prod.fst).Nodup) :
    m.insertAll (putEntry k v entries) = (m.insertAll entries).insert k v := by
  induction entries generalizing m with
  | nil => rfl
  | cons entry rest ih =>
    obtain ⟨hentry, hrest⟩ := List.nodup_cons.1 hnodup
    by_cases h : entry.1 = k
    · subst h
      rw [insertAll_cons, insert_insertAll_of_notMem (mem_keys_insert_self _ _ _) v hentry,
        insert_insert_self]
      simp [putEntry]
    · simp only [putEntry, h, if_false, insertAll_cons]
      exact ih _ hrest

/-- Writing a map that was made by writes is to do the writes. -/
theorem insertAll_entries_insertAll (m n : OrderedMap α) (entries : List (String × α)) :
    m.insertAll (n.insertAll entries).entries = (m.insertAll n.entries).insertAll entries := by
  induction entries generalizing n with
  | nil => rfl
  | cons entry rest ih =>
    rw [insertAll_cons, ih, insertAll_cons]
    exact congrArg (insertAll · rest) (insertAll_putEntry m entry.1 entry.2 n.nodup_keys)

end IniCompose.OrderedMap
