import IniCompose.Document.Basic
import IniCompose.Proofs.Document.Occurrences
import Mathlib.Data.List.Induction

/-!
# What a document is made of

Documents are made by opening sections and adding occurrences of keys, and merging does to one
document what has been done to make the other. A numbered document is determined by the names of its
sections and by their occurrences, and additions make both grow at the end only. So merging is
associative.
-/
namespace IniCompose

/-! ## First occurrences of names -/

section

variable {names : List String}

theorem eraseDups_concat (names : List String) (name : String) :
    (names ++ [name]).eraseDups =
      if name ∈ names then names.eraseDups else names.eraseDups ++ [name] := by
  rw [List.eraseDups_append]
  grind [List.removeAll]

theorem nodup_eraseDups (names : List String) : names.eraseDups.Nodup := by
  induction names using List.reverseRecOn with
  | nil => simp
  | append_singleton names name ih =>
    rw [eraseDups_concat]
    split
    · exact ih
    · grind [List.mem_eraseDups]

theorem eraseDups_of_nodup (h : names.Nodup) : names.eraseDups = names := by
  induction names using List.reverseRecOn with
  | nil => rfl
  | append_singleton names name ih =>
    rw [eraseDups_concat]
    grind

theorem eraseDups_eraseDups_append (names later : List String) :
    (names.eraseDups ++ later).eraseDups = (names ++ later).eraseDups := by
  induction later using List.reverseRecOn with
  | nil => simp [eraseDups_of_nodup (nodup_eraseDups names)]
  | append_singleton later name ih =>
    simp only [← List.append_assoc, eraseDups_concat, ih, List.mem_append, List.mem_eraseDups]

theorem eraseDups_append_eraseDups (names later : List String) :
    (names ++ later.eraseDups).eraseDups = (names ++ later).eraseDups := by
  induction later using List.reverseRecOn with
  | nil => rfl
  | append_singleton later name ih =>
    rw [← List.append_assoc, eraseDups_concat later, eraseDups_concat (names ++ later), ← ih]
    split
    · next h => simp [h]
    · next h => simp [h, ← List.append_assoc, eraseDups_concat]

theorem eraseDups_append_cons_of_mem {name : String} (h : name ∈ names) (later : List String) :
    (names ++ name :: later).eraseDups = (names ++ later).eraseDups := by
  rw [List.append_cons, ← eraseDups_eraseDups_append (names ++ [name]), eraseDups_concat,
    if_pos h, eraseDups_eraseDups_append]

end

/-! ## Additions -/

/-- What makes a document grow. An option is added to its section, which is opened if need be. -/
inductive Addition
  | opening (name : String)
  | option (name key value : String)

namespace Addition

/-- The section that is opened. -/
def name : Addition → String
  | opening name => name
  | option name _ _ => name

/-- The occurrence that is added to a section. -/
def occurrence? (name : String) : Addition → Option (String × String)
  | opening _ => none
  | option other key value => if other = name then some (key, value) else none

/-- The key does not hold the character that separates it from its number. -/
def Unnumbered : Addition → Prop
  | opening _ => True
  | option _ key _ => ':' ∉ key.toList

end Addition

namespace Document

/-- The occurrences of a section, none for an absent one. -/
def occurrences (document : Document) (name : String) : List (String × String) :=
  (document.optionsOf name).occurrences

/-- Every section has numbered options. -/
def Numbered (document : Document) : Prop := ∀ name, (document.optionsOf name).Numbered

def add (document : Document) : Addition → Document
  | .opening name => document.openSection name
  | .option name key value => (document.insert name key value).2

def addAll (document : Document) (additions : List Addition) : Document :=
  additions.foldl add document

/-- What makes the sections. -/
def additionsOf (entries : List (String × Options)) : List Addition :=
  entries.flatMap fun entry =>
    .opening entry.1 :: entry.2.occurrences.map fun occurrence =>
      .option entry.1 occurrence.1 occurrence.2

variable {document other : Document} {name : String} {addition : Addition}
  {additions : List Addition}

theorem optionsOf_put (document : Document) (name : String) (options : Options) (other : String) :
    optionsOf ⟨document.sections.insert name options⟩ other =
      if other = name then options else document.optionsOf other := by
  simp only [optionsOf, OrderedMap.getD, OrderedMap.get?_insert]
  split <;> rfl

theorem eraseDups_names (document : Document) : document.names.eraseDups = document.names :=
  eraseDups_of_nodup document.sections.keys_nodup

theorem names_put (document : Document) (name : String) (options : Options) :
    names ⟨document.sections.insert name options⟩ = (document.names ++ [name]).eraseDups := by
  rw [eraseDups_concat, eraseDups_names]
  exact document.sections.keys_insert name options

theorem numbered_empty : (∅ : Document).Numbered := fun _ => Options.numbered_empty

/-- Numbered documents are determined by the names of their sections and their occurrences. -/
theorem Numbered.ext (h : document.Numbered) (hother : other.Numbered)
    (hnames : document.names = other.names)
    (hoccurrences : ∀ name, document.occurrences name = other.occurrences name) :
    document = other := by
  obtain ⟨sections⟩ := document
  obtain ⟨others⟩ := other
  refine congrArg mk (OrderedMap.ext_get? hnames fun name hname => ?_)
  have hoptions := (h name).ext (hother name) (hoccurrences name)
  have hsome : ∀ {m : OrderedMap Options}, name ∈ m.keys → m.get? name = some (m.getD name ∅) := by
    intro m hmem
    obtain ⟨options, hoptions⟩ :=
      Option.ne_none_iff_exists'.1 fun hnone => OrderedMap.get?_eq_none_iff.1 hnone hmem
    simp [OrderedMap.getD, hoptions]
  have hname' : name ∈ others.keys := (show sections.keys = others.keys from hnames) ▸ hname
  rw [hsome hname, hsome hname']
  exact congrArg some hoptions

/-! ## One addition -/

theorem names_add (document : Document) (addition : Addition) :
    (document.add addition).names = (document.names ++ [addition.name]).eraseDups := by
  cases addition <;> exact names_put _ _ _

theorem Numbered.add (h : document.Numbered) (hkey : addition.Unnumbered) :
    (document.add addition).Numbered := by
  intro name
  cases addition with
  | opening opened =>
    rw [Document.add, openSection, optionsOf_put]
    split
    · exact h opened
    · exact h name
  | option opened key value =>
    rw [Document.add, insert, optionsOf_put]
    split
    · exact (h opened).insert hkey value
    · exact h name

theorem Numbered.occurrences_add (h : document.Numbered) (hkey : addition.Unnumbered)
    (name : String) :
    (document.add addition).occurrences name =
      document.occurrences name ++ (addition.occurrence? name).toList := by
  cases addition with
  | opening opened =>
    rw [Document.add, openSection, occurrences, optionsOf_put]
    split
    · next heq => simp [Addition.occurrence?, occurrences, heq]
    · simp [Addition.occurrence?, occurrences]
  | option opened key value =>
    rw [Document.add, insert, occurrences, optionsOf_put]
    split
    · next heq =>
      rw [(h opened).occurrences_insert hkey]
      simp [Addition.occurrence?, occurrences, heq]
    · next hne => simp [Addition.occurrence?, occurrences, Ne.symm hne]

/-! ## Many additions -/

theorem addAll_append (document : Document) (first later : List Addition) :
    document.addAll (first ++ later) = (document.addAll first).addAll later :=
  List.foldl_append

theorem names_addAll (document : Document) (additions : List Addition) :
    (document.addAll additions).names =
      (document.names ++ additions.map Addition.name).eraseDups := by
  induction additions generalizing document with
  | nil => simp [addAll, eraseDups_names]
  | cons addition rest ih =>
    rw [addAll, List.foldl_cons, ← addAll, ih, names_add, eraseDups_eraseDups_append]
    simp

theorem Numbered.addAll (h : document.Numbered)
    (hadditions : ∀ addition ∈ additions, addition.Unnumbered) :
    (document.addAll additions).Numbered := by
  induction additions generalizing document with
  | nil => exact h
  | cons addition rest ih =>
    obtain ⟨hfirst, hrest⟩ := List.forall_mem_cons.1 hadditions
    exact ih (h.add hfirst) hrest

theorem Numbered.occurrences_addAll (h : document.Numbered)
    (hadditions : ∀ addition ∈ additions, addition.Unnumbered) (name : String) :
    (document.addAll additions).occurrences name =
      document.occurrences name ++ additions.filterMap (Addition.occurrence? name) := by
  induction additions generalizing document with
  | nil => simp [Document.addAll]
  | cons addition rest ih =>
    obtain ⟨hfirst, hrest⟩ := List.forall_mem_cons.1 hadditions
    rw [Document.addAll, List.foldl_cons, ← Document.addAll, ih (h.add hfirst) hrest,
      h.occurrences_add hfirst]
    cases hoccurrence : addition.occurrence? name <;> simp [hoccurrence]

/-! ## Merging -/

theorem appendOptions_eq_addAll (document : Document) (entry : String × Options) :
    document.appendOptions entry.1 entry.2 = document.addAll (additionsOf [entry]) := by
  simp [appendOptions, addAll, additionsOf, Options.occurrences, occurrencesOf, List.foldl_map, add]

/-- Merging adds what makes the other document. -/
theorem merge_eq_addAll (document other : Document) :
    document.merge other = document.addAll (additionsOf other.sections.entries) := by
  unfold merge
  induction other.sections.entries generalizing document with
  | nil => rfl
  | cons entry rest ih =>
    rw [List.foldl_cons, ih, appendOptions_eq_addAll, ← addAll_append]
    simp [additionsOf]

section

variable {entries : List (String × Options)}

theorem name_mem_of_mem_additionsOf (h : addition ∈ additionsOf entries) :
    addition.name ∈ entries.map Prod.fst := by
  simp only [additionsOf, List.mem_flatMap, List.mem_cons, List.mem_map] at h ⊢
  obtain ⟨entry, hentry, rfl | ⟨occurrence, -, rfl⟩⟩ := h <;> exact ⟨entry, hentry, rfl⟩

/-- The sections that are opened, in the order of their first opening. -/
theorem eraseDups_name_additionsOf (h : (entries.map Prod.fst).Nodup) :
    ((additionsOf entries).map Addition.name).eraseDups = entries.map Prod.fst := by
  induction entries with
  | nil => rfl
  | cons entry rest ih =>
    obtain ⟨hnew, hrest⟩ := List.nodup_cons.1 h
    have hother : ∀ addition ∈ additionsOf rest, addition.name ≠ entry.1 := fun addition hmem heq =>
      hnew (heq ▸ name_mem_of_mem_additionsOf hmem)
    have hfilter : ((additionsOf rest).map Addition.name).filter (fun name => !name == entry.1) =
        (additionsOf rest).map Addition.name := by
      simpa [List.filter_eq_self] using hother
    rw [additionsOf, List.flatMap_cons, ← additionsOf, List.cons_append, List.map_cons,
      List.eraseDups_cons]
    simp [Addition.name, List.filter_append, Function.comp_def, hfilter, ih hrest]

theorem occurrence?_options (name other : String) (occurrences : List (String × String)) :
    (occurrences.map fun occurrence => Addition.option other occurrence.1 occurrence.2).filterMap
        (Addition.occurrence? name) = if other = name then occurrences else [] := by
  rw [List.filterMap_map]
  split <;> next h => simp [Addition.occurrence?, h]

/-- The occurrences that are added to a section are its own. -/
theorem occurrence?_additionsOf (h : (entries.map Prod.fst).Nodup) (name : String) :
    (additionsOf entries).filterMap (Addition.occurrence? name) =
      ((entries.lookup name).getD ∅).occurrences := by
  induction entries with
  | nil => rfl
  | cons entry rest ih =>
    obtain ⟨other, options⟩ := entry
    obtain ⟨hnew, hrest⟩ := List.nodup_cons.1 h
    have hopening : Addition.occurrence? name (.opening other) = none := rfl
    rw [additionsOf, List.flatMap_cons, ← additionsOf, List.filterMap_append,
      List.filterMap_cons_none hopening, occurrence?_options, ih hrest, List.lookup_cons]
    by_cases hname : other = name
    · have hnone : rest.lookup name = none := by
        rw [List.lookup_eq_none_iff]
        grind
      simp [hname, hnone, Options.occurrences, occurrencesOf]
    · have hne : (name == other) = false := by simpa using Ne.symm hname
      simp [hname, hne]

end

theorem Numbered.unnumbered_additionsOf (h : document.Numbered) :
    ∀ addition ∈ additionsOf document.sections.entries, addition.Unnumbered := by
  intro addition haddition
  obtain ⟨⟨name, options⟩, hentry, haddition⟩ := List.mem_flatMap.1 haddition
  have hoptions : document.optionsOf name = options := by
    rw [optionsOf, OrderedMap.getD, OrderedMap.get?_of_mem_entries hentry]
    rfl
  rcases List.mem_cons.1 haddition with rfl | haddition
  · trivial
  · obtain ⟨occurrence, hoccurrence, rfl⟩ := List.mem_map.1 haddition
    exact (hoptions ▸ h name).unnumbered occurrence hoccurrence

theorem names_merge (document other : Document) :
    (document.merge other).names = (document.names ++ other.names).eraseDups := by
  rw [merge_eq_addAll, names_addAll, ← eraseDups_append_eraseDups,
    eraseDups_name_additionsOf other.sections.nodup_keys]
  rfl

theorem Numbered.merge (h : document.Numbered) (hother : other.Numbered) :
    (document.merge other).Numbered := by
  rw [merge_eq_addAll]
  exact h.addAll hother.unnumbered_additionsOf

theorem Numbered.occurrences_merge (h : document.Numbered) (hother : other.Numbered)
    (name : String) :
    (document.merge other).occurrences name =
      document.occurrences name ++ other.occurrences name := by
  rw [merge_eq_addAll, h.occurrences_addAll hother.unnumbered_additionsOf,
    occurrence?_additionsOf other.sections.nodup_keys]
  rfl

/-- Merging with what additions have made does the additions. -/
theorem Numbered.merge_addAll (h : document.Numbered)
    (hadditions : ∀ addition ∈ additions, addition.Unnumbered) :
    document.merge ((∅ : Document).addAll additions) = document.addAll additions := by
  have hmade : ((∅ : Document).addAll additions).Numbered := numbered_empty.addAll hadditions
  refine (h.merge hmade).ext (h.addAll hadditions) ?_ fun name => ?_
  · rw [names_merge, names_addAll, names_addAll, eraseDups_append_eraseDups]
    rfl
  · rw [h.occurrences_merge hmade, h.occurrences_addAll hadditions,
      numbered_empty.occurrences_addAll hadditions]
    rfl

@[simp] theorem merge_empty (document : Document) : document.merge ∅ = document := rfl

theorem Numbered.empty_merge (h : document.Numbered) :
    (∅ : Document).merge document = document := by
  refine (numbered_empty.merge h).ext h ?_ fun name => ?_
  · rw [names_merge]
    exact document.eraseDups_names
  · rw [numbered_empty.occurrences_merge h]
    rfl

theorem Numbered.merge_assoc (h : document.Numbered) (hother : other.Numbered) {third : Document}
    (hthird : third.Numbered) :
    (document.merge other).merge third = document.merge (other.merge third) := by
  refine ((h.merge hother).merge hthird).ext (h.merge (hother.merge hthird)) ?_ fun name => ?_
  · rw [names_merge, names_merge, names_merge, names_merge, eraseDups_eraseDups_append,
      eraseDups_append_eraseDups, List.append_assoc]
  · rw [(h.merge hother).occurrences_merge hthird, h.occurrences_merge hother,
      h.occurrences_merge (hother.merge hthird), hother.occurrences_merge hthird,
      List.append_assoc]

end Document

end IniCompose
