import IniCompose.Proofs.OrderedMap.Entries
import Mathlib.Data.Nat.Find

/-!
# The order of keys

A map that keys are put into and erased from has its keys in a certain order: in that of their first
being put since they were erased last.
-/
namespace IniCompose.OrderedMap

variable {α : Type}

/-! ## Changes -/

inductive Change (α : Type)
  | put (key : String) (value : α)
  | erase (key : String)

def change (m : OrderedMap α) : Change α → OrderedMap α
  | .put key value => m.insert key value
  | .erase key => m.erase key

def changeAll (m : OrderedMap α) (changes : List (Change α)) : OrderedMap α :=
  changes.foldl change m

/-- The changes that put entries. -/
def puts (entries : List (String × α)) : List (Change α) :=
  entries.map fun entry => .put entry.1 entry.2

/-- The `n`-th change puts the key, and no later one erases it. -/
def PutAt (changes : List (Change α)) (key : String) (n : Nat) : Prop :=
  (∃ value, changes[n]? = some (.put key value)) ∧
    ∀ m, n < m → changes[m]? ≠ some (.erase key)

/-- The `n`-th change is the first that puts the key since it was erased last, if ever. -/
def FirstPutAt (changes : List (Change α)) (key : String) (n : Nat) : Prop :=
  PutAt changes key n ∧ ∀ m < n, ¬ PutAt changes key m

/-- A map holds the keys that have been put and not erased since, in the order of their first being
put since they were erased last. -/
structure OrderedBy (m : OrderedMap α) (changes : List (Change α)) : Prop where
  mem_keys_iff : ∀ key, key ∈ m.keys ↔ ∃ n, FirstPutAt changes key n
  pairwise : m.keys.Pairwise fun key later =>
    ∃ i j, i < j ∧ FirstPutAt changes key i ∧ FirstPutAt changes later j

variable {m : OrderedMap α} {changes : List (Change α)} {key other : String} {n : Nat}

theorem changeAll_append (m : OrderedMap α) (first later : List (Change α)) :
    m.changeAll (first ++ later) = (m.changeAll first).changeAll later :=
  List.foldl_append

theorem changeAll_puts (m : OrderedMap α) (entries : List (String × α)) :
    m.changeAll (puts entries) = m.insertAll entries := by
  simp [changeAll, puts, insertAll, List.foldl_map, change]

@[simp] theorem keys_erase (m : OrderedMap α) (key : String) :
    (m.erase key).keys = m.keys.filter fun k => k ≠ key := by
  simp [keys, List.filter_map, Function.comp_def]

/-! ## One change more -/

theorem PutAt.lt_length (h : PutAt changes key n) : n < changes.length := by
  obtain ⟨⟨value, hvalue⟩, -⟩ := h
  exact (List.getElem?_eq_some_iff.1 hvalue).1

theorem putAt_concat_put (value : α) :
    PutAt (changes ++ [.put other value]) key n ↔
      PutAt changes key n ∨ key = other ∧ n = changes.length := by
  constructor
  · rintro ⟨⟨v, hv⟩, hkept⟩
    by_cases hn : n < changes.length
    · refine .inl ⟨⟨v, ?_⟩, fun m hm => ?_⟩
      · grind
      · have := hkept m hm
        grind
    · exact .inr (by grind)
  · rintro (⟨⟨v, hv⟩, hkept⟩ | ⟨rfl, rfl⟩)
    · refine ⟨⟨v, ?_⟩, fun m hm => ?_⟩
      · grind
      · have := hkept m hm
        grind
    · exact ⟨⟨value, by grind⟩, by grind⟩

theorem putAt_concat_erase :
    PutAt (changes ++ [.erase other]) key n ↔ key ≠ other ∧ PutAt changes key n := by
  unfold PutAt
  grind

/-- Of the changes that put a key since it was erased last, there is a first one. -/
theorem exists_firstPutAt_iff : (∃ n, FirstPutAt changes key n) ↔ ∃ n, PutAt changes key n := by
  classical
  constructor
  · rintro ⟨n, hn, -⟩
    exact ⟨n, hn⟩
  · intro h
    exact ⟨Nat.find h, Nat.find_spec h, fun m hm => Nat.find_min h hm⟩

theorem firstPutAt_concat_put (value : α) :
    FirstPutAt (changes ++ [.put other value]) key n ↔
      FirstPutAt changes key n ∨
        key = other ∧ n = changes.length ∧ ¬ ∃ m, FirstPutAt changes key m := by
  rw [exists_firstPutAt_iff]
  unfold FirstPutAt
  simp only [putAt_concat_put]
  constructor
  · rintro ⟨hput | ⟨rfl, rfl⟩, hfirst⟩
    · exact .inl ⟨hput, fun m hm hearlier => hfirst m hm (.inl hearlier)⟩
    · exact .inr ⟨rfl, rfl, fun ⟨m, hm⟩ => hfirst m hm.lt_length (.inl hm)⟩
  · rintro (⟨hput, hfirst⟩ | ⟨rfl, rfl, hnew⟩)
    · refine ⟨.inl hput, fun m hm => ?_⟩
      have hlength := hput.lt_length
      rintro (hearlier | ⟨-, rfl⟩)
      · exact hfirst m hm hearlier
      · omega
    · refine ⟨.inr ⟨rfl, rfl⟩, fun m hm => ?_⟩
      rintro (hearlier | ⟨-, rfl⟩)
      · exact hnew ⟨m, hearlier⟩
      · omega

theorem firstPutAt_concat_erase :
    FirstPutAt (changes ++ [.erase other]) key n ↔ key ≠ other ∧ FirstPutAt changes key n := by
  unfold FirstPutAt
  grind [putAt_concat_erase]

/-! ## The order -/

theorem orderedBy_empty : OrderedBy (∅ : OrderedMap α) [] := by
  refine ⟨fun key => ?_, .nil⟩
  simp [FirstPutAt, PutAt]

/-- A key that is present keeps its place, and a new one comes last. -/
theorem OrderedBy.insert (h : m.OrderedBy changes) (key : String) (value : α) :
    (m.insert key value).OrderedBy (changes ++ [.put key value]) := by
  have hkept {k : String} {i : Nat} (hi : FirstPutAt changes k i) :
      FirstPutAt (changes ++ [.put key value]) k i := (firstPutAt_concat_put value).2 (.inl hi)
  have hpairwise : m.keys.Pairwise fun k later => ∃ i j, i < j ∧
      FirstPutAt (changes ++ [.put key value]) k i ∧
        FirstPutAt (changes ++ [.put key value]) later j := by
    refine h.pairwise.imp ?_
    rintro k later ⟨i, j, hij, hi, hj⟩
    exact ⟨i, j, hij, hkept hi, hkept hj⟩
  by_cases hmem : key ∈ m.keys
  · have hkeys : (m.insert key value).keys = m.keys := by rw [keys_insert, if_pos hmem]
    obtain ⟨i, hi⟩ := (h.mem_keys_iff key).1 hmem
    refine ⟨fun k => ?_, hkeys ▸ hpairwise⟩
    rw [hkeys, h.mem_keys_iff]
    simp only [firstPutAt_concat_put]
    grind
  · have hkeys : (m.insert key value).keys = m.keys ++ [key] := by rw [keys_insert, if_neg hmem]
    have hnew : ¬ ∃ i, FirstPutAt changes key i := fun hput => hmem ((h.mem_keys_iff key).2 hput)
    have hlast : FirstPutAt (changes ++ [.put key value]) key changes.length :=
      (firstPutAt_concat_put value).2 (.inr ⟨rfl, rfl, hnew⟩)
    refine ⟨fun k => ?_, ?_⟩
    · rw [hkeys, List.mem_append, h.mem_keys_iff]
      simp only [firstPutAt_concat_put]
      grind
    · rw [hkeys, List.pairwise_append]
      refine ⟨hpairwise, by simp, fun k hk later hlater => ?_⟩
      obtain rfl := List.mem_singleton.1 hlater
      obtain ⟨i, hi⟩ := (h.mem_keys_iff k).1 hk
      exact ⟨i, changes.length, hi.1.lt_length, hkept hi, hlast⟩

/-- The other keys keep their order. -/
theorem OrderedBy.erase (h : m.OrderedBy changes) (key : String) :
    (m.erase key).OrderedBy (changes ++ [.erase key]) := by
  constructor
  · intro k
    simp only [keys_erase, List.mem_filter, h.mem_keys_iff, firstPutAt_concat_erase]
    grind
  · rw [keys_erase]
    refine (h.pairwise.filter _).imp_of_mem ?_
    rintro k later hk hlater ⟨i, j, hij, hi, hj⟩
    have hk : k ≠ key := by simpa using (List.mem_filter.1 hk).2
    have hlater : later ≠ key := by simpa using (List.mem_filter.1 hlater).2
    exact ⟨i, j, hij, firstPutAt_concat_erase.2 ⟨hk, hi⟩,
      firstPutAt_concat_erase.2 ⟨hlater, hj⟩⟩

/-- Induction on the further changes. -/
theorem OrderedBy.changeAll (h : m.OrderedBy changes) (later : List (Change α)) :
    (m.changeAll later).OrderedBy (changes ++ later) := by
  induction later generalizing m changes with
  | nil => simpa [OrderedMap.changeAll] using h
  | cons next rest ih =>
    have hnext : (m.change next).OrderedBy (changes ++ [next]) := by
      cases next with
      | put key value => exact h.insert key value
      | erase key => exact h.erase key
    simpa [OrderedMap.changeAll] using ih hnext

/-- Every map is ordered as if its entries had been put one after the other. -/
theorem orderedBy_puts_entries (m : OrderedMap α) : m.OrderedBy (puts m.entries) := by
  have hputs : ((∅ : OrderedMap α).changeAll (puts m.entries)).OrderedBy (puts m.entries) :=
    orderedBy_empty.changeAll (puts m.entries)
  rwa [changeAll_puts, ← ofList, ofList_entries] at hputs

end IniCompose.OrderedMap
