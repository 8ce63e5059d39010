import IniCompose.Document.Basic
import IniCompose.Proofs.Document.Occurrences
import Mathlib.Data.List.Nodup
import Mathlib.Data.List.Perm.Subperm
import Mathlib.Data.Nat.Find
import Mathlib.Order.Bounds.Defs

/-!
# Insertion into any document

Where a further option is stored is searched for by trying one key after the other. The search ends
at the first key that is free, whatever the keys of the section are: there may be gaps in their
numbers, numbers before the key that they belong to, and colons that no insertion has put there. It
tries one key more than there are options at most, for the tried keys are distinct and cannot all be
taken.
-/
namespace IniCompose

namespace StoredKey

/-- The stored keys of `key` are tried one after the other, from the one behind `n` others on, up to
the first that is free. -/
inductive Search (options : Options) (key : String) : Nat → Nat → String → Prop
  | free {n : Nat} : nth key n ∉ options.keys → Search options key n 1 (nth key n)
  | taken {n tries : Nat} {found : String} : nth key n ∈ options.keys →
    Search options key (n + 1) tries found → Search options key n (tries + 1) found

variable {options : Options} {key found found' : String} {n tries tries' : Nat}

/-- A search cannot end in two ways. -/
theorem Search.unique (h : Search options key n tries found)
    (h' : Search options key n tries' found') : tries' = tries ∧ found' = found := by
  induction h generalizing tries' with
  | free hfree =>
    cases h' with
    | free _ => exact ⟨rfl, rfl⟩
    | taken htaken _ => exact absurd htaken hfree
  | taken htaken _ ih =>
    cases h' with
    | free hfree => exact absurd htaken hfree
    | taken _ hrest =>
      obtain ⟨htries, hfound⟩ := ih hrest
      exact ⟨congrArg (· + 1) htries, hfound⟩

/-- A search ends at the first free key. The induction is on the number of taken keys up to it. -/
theorem search_of_taken (htaken : ∀ later < tries, nth key (n + later) ∈ options.keys)
    (hfree : nth key (n + tries) ∉ options.keys) :
    Search options key n (tries + 1) (nth key (n + tries)) := by
  induction tries generalizing n with
  | zero => exact .free hfree
  | succ tries ih =>
    have hnext : n + 1 + tries = n + (tries + 1) := by omega
    have hrest := @ih (n + 1) (fun later hlater => ?_) (hnext ▸ hfree)
    · rw [hnext] at hrest
      exact .taken (htaken 0 (Nat.succ_pos tries)) hrest
    · have hlater := htaken (later + 1) (by omega)
      rwa [show n + 1 + later = n + (later + 1) by omega]

theorem suffixed_ne (key : String) (n : Nat) : suffixed key n ≠ key := by
  intro h
  have hlength := congrArg String.length h
  simp only [suffixed, String.length_append] at hlength
  have hcolon : ":".length = 1 := rfl
  omega

/-- The stored keys of a key are distinct, also where the key holds colons itself. -/
theorem nth_injective (key : String) : Function.Injective (nth key) := by
  intro m n h
  unfold nth at h
  split at h <;> split at h
  · omega
  · exact absurd h.symm (suffixed_ne key _)
  · exact absurd h (suffixed_ne key _)
  · have hrepr : (m + 1).repr = (n + 1).repr := by simpa [suffixed] using h
    have hsucc := repr_inj.1 hrepr
    omega

/-- One of the first stored keys of a key is free: they are distinct, and more than the options. -/
theorem exists_nth_notMem (options : Options) (key : String) :
    ∃ tries ≤ options.size, nth key tries ∉ options.keys := by
  by_contra hnone
  have hsubset : (List.range (options.size + 1)).map (nth key) ⊆ options.keys := by
    intro stored hstored
    obtain ⟨tries, htries, rfl⟩ := List.mem_map.1 hstored
    by_contra hfree
    exact hnone ⟨tries, Nat.lt_succ_iff.1 (List.mem_range.1 htries), hfree⟩
  have hnodup : ((List.range (options.size + 1)).map (nth key)).Nodup :=
    List.nodup_range.map (nth_injective key)
  have hlength := (List.subperm_of_subset hnodup hsubset).length_le
  simp only [List.length_map, List.length_range, OrderedMap.length_keys] at hlength
  omega

/-- The stored keys before the first free one are taken. -/
theorem exists_first_free (options : Options) (key : String) :
    ∃ tries ≤ options.size, nth key tries ∉ options.keys ∧
      ∀ earlier < tries, nth key earlier ∈ options.keys := by
  have hexists := exists_nth_notMem options key
  refine ⟨Nat.find hexists, (Nat.find_spec hexists).1, (Nat.find_spec hexists).2, ?_⟩
  intro earlier hearlier
  by_contra hfree
  have hbound := (Nat.find_spec hexists).1
  exact Nat.find_min hexists hearlier ⟨by omega, hfree⟩

end StoredKey

namespace Document

open StoredKey

theorem options?_insert_of_ne {name other : String} (h : other ≠ name) (document : Document)
    (key value : String) :
    (document.insert name key value).2.options? other = document.options? other := by
  simp [insert, options?, h]

theorem options?_insert_self (document : Document) (name key value : String) :
    (document.insert name key value).2.options? name =
      some ((document.optionsOf name).insert (free (document.optionsOf name) key) value) := by
  simp [insert, options?]

theorem names_insert (document : Document) (name key value : String) :
    (document.insert name key value).2.names =
      if name ∈ document.names then document.names else document.names ++ [name] :=
  document.sections.keys_insert name _

/-- The key of a further option is searched for in no more tries than there are options in its
section, and one more. It is the key as written if that is free, and else the key with the least
number that is free. The option comes last in its section, which comes last in the document if it is
new; nothing else changes. -/
theorem insert_finds_free_key (document : Document) (name key value : String) :
    let options := document.optionsOf name
    let stored := (document.insert name key value).1
    let after := (document.insert name key value).2
    (∃ tries ≤ options.size + 1, ∀ n found,
      Search options key 0 n found ↔ n = tries ∧ found = stored) ∧
    stored ∉ options.keys ∧
    (key ∉ options.keys → stored = key) ∧
    (key ∈ options.keys → ∃ n, stored = suffixed key n ∧
      IsLeast {n | 2 ≤ n ∧ suffixed key n ∉ options.keys} n) ∧
    (∃ extended, after.options? name = some extended ∧
      extended.entries = options.entries ++ [(stored, value)]) ∧
    (∀ other, other ≠ name → after.options? other = document.options? other) ∧
    after.names = if name ∈ document.names then document.names else document.names ++ [name] := by
  intro options stored after
  obtain ⟨taken, hsize, hfree, htaken⟩ := exists_first_free options key
  have hstored : stored = nth key taken := free_eq_nth htaken hfree hsize
  have hnew : stored ∉ options.keys := hstored ▸ hfree
  have hsearch : Search options key 0 (taken + 1) stored := by
    have hfound := @search_of_taken options key 0 taken
    simp only [Nat.zero_add] at hfound
    exact hstored ▸ hfound htaken hfree
  refine ⟨⟨taken + 1, by omega, fun n found => ?_⟩, hnew, fun hkey => ?_, fun hkey => ?_,
    ⟨_, document.options?_insert_self name key value, ?_⟩,
    fun other hother => options?_insert_of_ne hother document key value,
    document.names_insert name key value⟩
  · constructor
    · intro hother
      exact hsearch.unique hother
    · rintro ⟨rfl, rfl⟩
      exact hsearch
  · -- no key is taken before one that is free
    cases taken with
    | zero => exact hstored
    | succ n => exact absurd (htaken 0 (Nat.succ_pos n)) hkey
  · cases taken with
    | zero => exact absurd hkey hfree
    | succ n =>
      refine ⟨n + 2, hstored, ⟨by omega, hfree⟩, ?_⟩
      rintro m ⟨hm, hmfree⟩
      by_contra hless
      obtain ⟨earlier, rfl⟩ := Nat.exists_eq_add_of_le' hm
      exact hmfree (htaken (earlier + 1) (by omega))
  · exact OrderedMap.entries_insert_of_notMem value hnew

/-- A section with numbers before the key that they belong to, and a gap between them. -/
def crowded : Document :=
  ⟨.ofList [("A", .ofList [("k:2", "1"), ("k", "2"), ("k:4", "3"), ("k:2:2", "4")]),
    ("B", .ofList [("k", "1")])]⟩

theorem insert_finds_free_key_crowded :
    "k" ∈ (crowded.optionsOf "A").keys ∧ "k:3" ∉ (crowded.optionsOf "A").keys ∧
      (crowded.insert "A" "k" "5").1 = "k:3" ∧ (crowded.insert "A" "k:3" "5").1 = "k:3" ∧
      (∃ tries ≤ 5, Search (crowded.optionsOf "A") "k" 0 tries "k:3") ∧
      (crowded.insert "A" "k" "5").2.options? "B" = crowded.options? "B" := by
  have hkey : "k" ∈ (crowded.optionsOf "A").keys := by decide
  have hfree : "k:3" ∉ (crowded.optionsOf "A").keys := by decide
  obtain ⟨⟨tries, htries, hsearch⟩, -, -, hnumber, -, hothers, -⟩ :=
    insert_finds_free_key crowded "A" "k" "5"
  obtain ⟨-, -, hwritten, -⟩ := insert_finds_free_key crowded "A" "k:3" "5"
  obtain ⟨n, hstored, ⟨htwo, hnfree⟩, hleast⟩ := hnumber hkey
  have hthree : n ≤ 3 := hleast ⟨by decide, hfree⟩
  have hne : n ≠ 2 := by
    rintro rfl
    exact hnfree (by decide)
  obtain rfl : n = 3 := by omega
  refine ⟨hkey, hfree, hstored, hwritten hfree, ⟨tries, htries, ?_⟩, hothers "B" (by decide)⟩
  exact (hsearch _ _).2 ⟨rfl, hstored.symm⟩

end Document

end IniCompose
