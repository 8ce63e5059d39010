import IniCompose.Document.Basic
import IniCompose.Proofs.OrderedMap.Entries

/-!
# Occurrences of keys

The options of a section tell which keys have been written, in which order and with which values; a
key may occur more than once. Its occurrences are stored under keys that number them from the first
one on without a gap. So numbered options can be told from their occurrences, and a further
occurrence has exactly the next number.
-/
namespace IniCompose

/-! ## Numbers -/

namespace StoredKey

variable {key other : String}

/-- The stored form of the occurrence of a key before which there are `earlier` others. -/
def nth (key : String) (earlier : Nat) : String :=
  if earlier = 0 then key else suffixed key (earlier + 1)

theorem split_nth (h : ':' ∉ key.toList) (earlier : Nat) :
    split (nth key earlier) = (key, if earlier = 0 then none else some (earlier + 1).repr) := by
  unfold nth
  split
  · exact split_of_notMem h
  · exact split_suffixed _

theorem repr_inj {m n : Nat} : m.repr = n.repr ↔ m = n := by
  refine ⟨fun h => ?_, congrArg Nat.repr⟩
  have hdigits : Nat.toDigits 10 m = Nat.toDigits 10 n := by
    simpa only [Nat.toList_repr] using congrArg String.toList h
  rw [← @Nat.ofDigitChars_ten_toDigits m, hdigits, Nat.ofDigitChars_ten_toDigits]

/-- Different occurrences are stored under different keys. -/
theorem nth_inj (hkey : ':' ∉ key.toList) (hother : ':' ∉ other.toList) {m n : Nat} :
    nth key m = nth other n ↔ key = other ∧ m = n := by
  refine ⟨fun h => ?_, fun ⟨hkeys, hnumbers⟩ => hkeys ▸ hnumbers ▸ rfl⟩
  have hsplit := congrArg split h
  rw [split_nth hkey, split_nth hother] at hsplit
  grind [repr_inj]

variable {options : Options} {tries : Nat}

/-- The search goes on up to the first free stored key, if its budget reaches as far. The induction
is on the budget: the stored keys before the one with the number `n` are taken. -/
theorem probe_eq (htaken : ∀ earlier < tries, nth key earlier ∈ options.keys)
    (hfree : nth key tries ∉ options.keys) {budget n : Nat} (hn : 2 ≤ n) (hbelow : n ≤ tries + 1)
    (hbudget : tries + 1 ≤ n + budget) :
    probe options key budget n = suffixed key (tries + 1) := by
  induction budget generalizing n with
  | zero =>
    obtain rfl : n = tries + 1 := by omega
    rfl
  | succ budget ih =>
    have hnth : suffixed key n = nth key (n - 1) := by grind [nth]
    have hcontains : options.contains (suffixed key n) ↔ n - 1 < tries := by
      rw [OrderedMap.contains_iff_mem_keys, hnth]
      refine ⟨fun hmem => ?_, htaken (n - 1)⟩
      have hne : n - 1 ≠ tries := fun heq => hfree (heq ▸ hmem)
      omega
    unfold probe
    split
    · next hmore =>
      have hless := hcontains.1 hmore
      exact ih (by omega) (by omega) (by omega)
    · next hend =>
      have hleast : ¬ n - 1 < tries := fun hless => hend (hcontains.2 hless)
      obtain rfl : n = tries + 1 := by omega
      rfl

/-- A further occurrence is stored under the first of its keys that is free. -/
theorem free_eq_nth (htaken : ∀ earlier < tries, nth key earlier ∈ options.keys)
    (hfree : nth key tries ∉ options.keys) (htries : tries ≤ options.size) :
    free options key = nth key tries := by
  have hfirst : options.contains key ↔ nth key 0 ∈ options.keys := OrderedMap.contains_iff_mem_keys
  unfold free
  cases tries with
  | zero => exact if_neg fun hcontains => hfree (hfirst.1 hcontains)
  | succ n =>
    have hcontains := hfirst.2 (htaken 0 (Nat.succ_pos n))
    rw [if_pos hcontains, probe_eq htaken hfree (by omega) (by omega) (by omega)]
    rfl

end StoredKey

/-- The stored forms of occurrences that come after those of the keys in `earlier`. -/
def numberAfter (earlier : List String) : List (String × String) → List (String × String)
  | [] => []
  | (key, value) :: rest =>
    (StoredKey.nth key (earlier.count key), value) :: numberAfter (earlier ++ [key]) rest

/-- No key holds the character that separates it from its number. -/
def Unnumbered (occurrences : List (String × String)) : Prop :=
  ∀ occurrence ∈ occurrences, ':' ∉ occurrence.1.toList

/-- The occurrences that stored options stand for. -/
def occurrencesOf (entries : List (String × String)) : List (String × String) :=
  entries.map fun option => ((StoredKey.split option.1).1, option.2)

section

variable {key : String} {earlier : List String} {first occurrences : List (String × String)}

theorem numberAfter_append (earlier : List String) (first later : List (String × String)) :
    numberAfter earlier (first ++ later) =
      numberAfter earlier first ++ numberAfter (earlier ++ first.map Prod.fst) later := by
  induction first generalizing earlier with
  | nil => simp [numberAfter]
  | cons occurrence rest ih => simp [numberAfter, ih]

@[simp] theorem length_numberAfter (earlier : List String) (occurrences : List (String × String)) :
    (numberAfter earlier occurrences).length = occurrences.length := by
  induction occurrences generalizing earlier with
  | nil => rfl
  | cons occurrence rest ih => simp [numberAfter, ih]

/-- Exactly the numbers from the first free one on that the occurrences need are taken. -/
theorem nth_mem_numberAfter (h : Unnumbered occurrences) (hkey : ':' ∉ key.toList) {n : Nat} :
    StoredKey.nth key n ∈ (numberAfter earlier occurrences).map Prod.fst ↔
      earlier.count key ≤ n ∧ n < earlier.count key + (occurrences.map Prod.fst).count key := by
  induction occurrences generalizing earlier with
  | nil =>
    simp only [numberAfter, List.map_nil, List.not_mem_nil, List.count_nil, false_iff]
    omega
  | cons occurrence rest ih =>
    obtain ⟨hfirst, hrest⟩ := List.forall_mem_cons.1 h
    simp only [numberAfter, List.map_cons, List.mem_cons, StoredKey.nth_inj hkey hfirst, ih hrest]
    grind

end

/-! ## Numbered options -/

namespace Options

/-- The keys that have been written with their values, in order. -/
def occurrences (options : Options) : List (String × String) := occurrencesOf options.entries

/-- The number of occurrences of a key. -/
def count (options : Options) (key : String) : Nat :=
  (options.occurrences.map Prod.fst).count key

/-- The options are the numbered forms of their occurrences. -/
structure Numbered (options : Options) : Prop where
  entries_eq : options.entries = numberAfter [] options.occurrences
  unnumbered : Unnumbered options.occurrences

theorem numbered_empty : Numbered ∅ := ⟨rfl, by simp [Unnumbered, occurrences, occurrencesOf]⟩

variable {options other : Options} {key value : String}

/-- Numbered options are determined by their occurrences. -/
theorem Numbered.ext (h : options.Numbered) (hother : other.Numbered)
    (heq : options.occurrences = other.occurrences) : options = other :=
  OrderedMap.ext_entries (by rw [h.entries_eq, hother.entries_eq, heq])

/-- Every option is stored with the number that its occurrence has among those of its key. -/
theorem Numbered.exists_eq_nth (h : options.Numbered) {before after : List (String × String)}
    {stored : String} (hentries : options.entries = before ++ (stored, value) :: after) :
    ∃ key, ':' ∉ key.toList ∧
      stored = StoredKey.nth key (((occurrencesOf before).map Prod.fst).count key) := by
  have hoccurrences : options.occurrences = occurrencesOf before ++
      ((StoredKey.split stored).1, value) :: occurrencesOf after := by
    simp [occurrences, occurrencesOf, hentries]
  refine ⟨(StoredKey.split stored).1,
    h.unnumbered ((StoredKey.split stored).1, value) (by simp [hoccurrences]), ?_⟩
  have hnumber := h.entries_eq
  rw [hentries, hoccurrences, numberAfter_append] at hnumber
  have hlength : before.length = (numberAfter [] (occurrencesOf before)).length := by
    simp [occurrencesOf]
  have hstored := (List.append_inj hnumber hlength).2
  simp only [numberAfter, List.nil_append, List.cons.injEq, Prod.mk.injEq, and_true] at hstored
  exact hstored.1

theorem Numbered.nth_mem_keys (h : options.Numbered) (hkey : ':' ∉ key.toList) {n : Nat} :
    StoredKey.nth key n ∈ options.keys ↔ n < options.count key := by
  rw [OrderedMap.keys, h.entries_eq, nth_mem_numberAfter h.unnumbered hkey]
  simp [count]

theorem count_le_size (options : Options) (key : String) : options.count key ≤ options.size := by
  have hcount := (options.occurrences.map Prod.fst).count_le_length (a := key)
  simpa [count, occurrences, occurrencesOf, OrderedMap.size] using hcount

/-- The search ends at the number that is next. -/
theorem Numbered.free_eq (h : options.Numbered) (hkey : ':' ∉ key.toList) :
    StoredKey.free options key = StoredKey.nth key (options.count key) := by
  apply StoredKey.free_eq_nth
  · intro earlier hearlier
    exact (h.nth_mem_keys hkey).2 hearlier
  · simp [h.nth_mem_keys hkey]
  · exact options.count_le_size key

theorem Numbered.entries_insert (h : options.Numbered) (hkey : ':' ∉ key.toList) (value : String) :
    (options.insert (StoredKey.free options key) value).entries =
      options.entries ++ [(StoredKey.nth key (options.count key), value)] := by
  rw [h.free_eq hkey]
  refine OrderedMap.entries_insert_of_notMem _ ?_
  simp [h.nth_mem_keys hkey]

/-- A further occurrence is the last one. -/
theorem Numbered.occurrences_insert (h : options.Numbered) (hkey : ':' ∉ key.toList)
    (value : String) :
    occurrences (options.insert (StoredKey.free options key) value) =
      options.occurrences ++ [(key, value)] := by
  rw [occurrences, h.entries_insert hkey]
  simp [occurrences, occurrencesOf, StoredKey.split_nth hkey]

theorem Numbered.insert (h : options.Numbered) (hkey : ':' ∉ key.toList) (value : String) :
    Numbered (options.insert (StoredKey.free options key) value) := by
  refine ⟨?_, ?_⟩
  · rw [h.entries_insert hkey, h.occurrences_insert hkey, numberAfter_append, ← h.entries_eq]
    rfl
  · rw [h.occurrences_insert hkey]
    exact List.forall_mem_append.2 ⟨h.unnumbered, List.forall_mem_singleton.2 hkey⟩

end Options

end IniCompose
