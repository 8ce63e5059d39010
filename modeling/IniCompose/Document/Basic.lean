import IniCompose.OrderedMap
import IniCompose.Text.Basic

/-!
# Documents

The sections of a configuration in file order, before any operation is applied. Sections are opened
rather than created: opening one that exists changes nothing. Within a section every option has a
stored key of its own.
-/
namespace IniCompose

/-! ## Stored keys

The first occurrence of a key is stored under the key itself, a later one under the key, a colon and
the least number from 2 on that is free. -/

/-- The options of one section: stored keys with their values, in file order. -/
abbrev Options := OrderedMap String

namespace StoredKey

/-- The stored form of the `n`-th occurrence of a key, for `n` at least 2. -/
def suffixed (key : String) (n : Nat) : String := key ++ ":" ++ n.repr

/-- The key as written and the suffix behind the last colon, if there is a colon. -/
def split (stored : String) : String × Option String :=
  match Text.cutLast? (· = ':') stored.toList with
  | some (key, suffix) => (.ofList key, some (.ofList suffix))
  | none => (stored, none)

/-- Counts up from `n` to a suffixed key that is free, for at most `budget` steps. -/
def probe (options : Options) (key : String) : Nat → Nat → String
  | 0, n => suffixed key n
  | budget + 1, n =>
    if options.contains (suffixed key n) then probe options key budget (n + 1) else suffixed key n

/-- The stored key for a further occurrence of `key`. As many suffixed keys as there are options
cannot all be taken, since one of the options is `key` itself. -/
def free (options : Options) (key : String) : String :=
  if options.contains key then probe options key options.size 2 else key

variable {stored key suffix : String}

/-- The suffix is what stands behind the last colon. -/
theorem split_eq_some_iff :
    split stored = (key, some suffix) ↔ stored = key ++ ":" ++ suffix ∧ ':' ∉ suffix.toList := by
  have hsplit : split stored = (key, some suffix) ↔
      Text.cutLast? (· = ':') stored.toList = some (key.toList, suffix.toList) := by
    unfold split
    cases Text.cutLast? (· = ':') stored.toList with
    | none => simp
    | some parts => simp [Prod.ext_iff, ← String.toList_inj]
  have htext : stored.toList = key.toList ++ ':' :: suffix.toList ↔
      stored = key ++ ":" ++ suffix := by
    simp [← String.toList_inj]
  rw [hsplit, Text.cutLast?_eq_some_iff, ← htext]
  grind

theorem split_eq_none_iff : split stored = (key, none) ↔ key = stored ∧ ':' ∉ stored.toList := by
  have hsplit : split stored = (key, none) ↔
      key = stored ∧ Text.cutLast? (· = ':') stored.toList = none := by
    unfold split
    cases Text.cutLast? (· = ':') stored.toList <;> simp [eq_comm]
  rw [hsplit, Text.cutLast?_eq_none_iff]
  grind

theorem split_of_notMem (h : ':' ∉ key.toList) : split key = (key, none) :=
  split_eq_none_iff.2 ⟨rfl, h⟩

theorem split_suffixed (n : Nat) : split (suffixed key n) = (key, some n.repr) := by
  refine split_eq_some_iff.2 ⟨rfl, fun hcolon => ?_⟩
  have hmem : ':' ∈ Nat.toDigits 10 n := by simpa [Nat.repr] using hcolon
  have hdigit : (':' : Char).isDigit :=
    Nat.isDigit_of_mem_toDigits (by decide) (by decide) hmem
  cases hdigit

theorem probe_eq_suffixed (options : Options) (key : String) (budget n : Nat) :
    ∃ m, probe options key budget n = suffixed key m := by
  induction budget generalizing n with
  | zero => exact ⟨n, rfl⟩
  | succ budget ih =>
    unfold probe
    split
    · exact ih (n + 1)
    · exact ⟨n, rfl⟩

/-- The key of an occurrence is found again in the stored key. -/
theorem split_free (options : Options) (h : ':' ∉ key.toList) :
    (split (free options key)).1 = key := by
  unfold free
  split
  · obtain ⟨m, hm⟩ := probe_eq_suffixed options key options.size 2
    rw [hm, split_suffixed]
  · rw [split_of_notMem h]

end StoredKey

/-! ## Documents -/

structure Document where
  sections : OrderedMap Options
  deriving DecidableEq

namespace Document

def empty : Document := ⟨∅⟩

instance : EmptyCollection Document := ⟨empty⟩
instance : Inhabited Document := ⟨empty⟩

def names (document : Document) : List String := document.sections.keys

def size (document : Document) : Nat := document.sections.size

def isEmpty (document : Document) : Bool := document.sections.isEmpty

def options? (document : Document) (name : String) : Option Options := document.sections.get? name

def hasSection (document : Document) (name : String) : Bool := document.sections.contains name

/-- The options of a section, none for an absent one. -/
def optionsOf (document : Document) (name : String) : Options := document.sections.getD name ∅

def openSection (document : Document) (name : String) : Document :=
  ⟨document.sections.insert name (document.optionsOf name)⟩

/-- Appends an occurrence of `key` to a section, which is opened first. Gives the stored key too. -/
def insert (document : Document) (name key value : String) : String × Document :=
  let options := document.optionsOf name
  let stored := StoredKey.free options key
  (stored, ⟨document.sections.insert name (options.insert stored value)⟩)

/-- Changes the value of an option; an absent option stays absent. -/
def modifyValue (document : Document) (name stored : String) (f : String → String) : Document :=
  let options := document.optionsOf name
  match options.get? stored with
  | some value => ⟨document.sections.insert name (options.insert stored (f value))⟩
  | none => document

/-- Appends the options of a section as further occurrences of their keys. -/
def appendOptions (document : Document) (name : String) (options : Options) : Document :=
  options.entries.foldl
    (fun document option => (document.insert name (StoredKey.split option.1).1 option.2).2)
    (document.openSection name)

/-- Appends every section of `other`, section by section. -/
def merge (document other : Document) : Document :=
  other.sections.entries.foldl
    (fun document entry => document.appendOptions entry.1 entry.2) document

end Document

end IniCompose
