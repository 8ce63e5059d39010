import IniCompose.Proofs.Document.Statements

/-!
# Documents that are built by reading, inserting and merging

However documents are read, extended and merged, the stored keys of a section number the occurrences
of its keys without a gap, so that every option can be told from the stored ones. Reading keeps the
options in the order of the text, an insertion adds one at the end, and merging puts the options of
one document behind those of the other.
-/
namespace IniCompose

/-- The `n`-th occurrence of a key is stored under the key if it is the first one, and else under
the key with `n` behind it; the stored key tells the key and the number. -/
def Options.Faithful (options : Options) : Prop :=
  ∀ before stored value after, options.entries = before ++ (stored, value) :: after →
    ∃ key n, ':' ∉ key.toList ∧ n = ((occurrencesOf before).map Prod.fst).count key + 1 ∧
      stored = (if n = 1 then key else StoredKey.suffixed key n) ∧
      StoredKey.split stored = (key, if n = 1 then none else some n.repr)

theorem Options.Numbered.faithful {options : Options} (h : options.Numbered) :
    options.Faithful := by
  intro before stored value after hentries
  obtain ⟨key, hkey, rfl⟩ := h.exists_eq_nth hentries
  refine ⟨key, _, hkey, rfl, ?_, ?_⟩
  · simp [StoredKey.nth]
  · rw [StoredKey.split_nth hkey]
    simp

namespace Document

/-- The documents that can be made from the empty one. -/
inductive Built : Document → Prop
  | empty : Built ∅
  | parse {text origin document} : parse text origin = .ok document → Built document
  | insert {document name key value} : Built document → ':' ∉ key.toList →
    Built (document.insert name key value).2
  | merge {document other} : Built document → Built other → Built (document.merge other)

variable {document other third : Document}

/-- Induction on how the document is built. -/
theorem Built.numbered (h : document.Built) : document.Numbered := by
  induction h with
  | empty => exact numbered_empty
  | parse hparse => exact numbered_of_parse hparse
  | @insert document name key value _ hkey ih =>
    exact @Numbered.add document (.option name key value) ih hkey
  | merge _ _ ih ihother => exact ih.merge ihother

/-- One more occurrence at the end of a section, which is opened if need be, and nothing else. -/
structure Extends (document : Document) (name key value stored : String) (after : Document) :
    Prop where
  stored_eq : stored = StoredKey.nth key ((document.optionsOf name).count key)
  entries : (after.optionsOf name).entries = (document.optionsOf name).entries ++ [(stored, value)]
  occurrences : after.occurrences name = document.occurrences name ++ [(key, value)]
  names : after.names = if name ∈ document.names then document.names else document.names ++ [name]
  others : ∀ other, other ≠ name → after.options? other = document.options? other

theorem Numbered.extends_insert (h : document.Numbered) (name value : String) {key : String}
    (hkey : ':' ∉ key.toList) :
    document.Extends name key value (document.insert name key value).1
      (document.insert name key value).2 := by
  have hfree := (h name).free_eq hkey
  have hsection : (document.insert name key value).2.optionsOf name =
      (document.optionsOf name).insert (document.insert name key value).1 value := by
    rw [insert, optionsOf_put, if_pos rfl]
  refine ⟨hfree, ?_, ?_, document.sections.keys_insert name _, fun other hother => ?_⟩
  · rw [hsection, insert, (h name).entries_insert hkey, hfree]
  · rw [occurrences, hsection]
    exact (h name).occurrences_insert hkey value
  · rw [insert, options?, OrderedMap.get?_insert, if_neg hother]
    rfl

theorem names_merge_eq_append (document other : Document) :
    (document.merge other).names =
      document.names ++ other.names.filter fun name => name ∉ document.names := by
  have hfilter : other.names.removeAll document.names =
      other.names.filter fun name => name ∉ document.names := by
    simp [List.removeAll]
  rw [names_merge, List.eraseDups_append, eraseDups_names, hfilter]
  exact congrArg _ (eraseDups_of_nodup (other.sections.keys_nodup.filter _))

/-- Stored keys are a faithful encoding of repeated keys, in every document that is built; reading,
inserting and merging append to the occurrences of the sections; and so merging is associative. -/
theorem Built.faithful_encoding (h : document.Built) (hother : other.Built) (hthird : third.Built) :
    (∀ name options, document.options? name = some options → options.Faithful) ∧
    (∀ text origin read, Document.parse text origin = .ok read →
      read.names = (headers (statements text)).eraseDups ∧
      ∀ name, read.occurrences name = optionsUnder name none (statements text)) ∧
    (∀ name key value, ':' ∉ key.toList →
      document.Extends name key value (document.insert name key value).1
        (document.insert name key value).2) ∧
    (document.merge other).names =
      document.names ++ other.names.filter (fun name => name ∉ document.names) ∧
    (∀ name, (document.merge other).occurrences name =
      document.occurrences name ++ other.occurrences name) ∧
    (document.merge other).merge third = document.merge (other.merge third) ∧
    (∅ : Document).merge document = document ∧ document.merge ∅ = document := by
  have hnumbered := h.numbered
  refine ⟨fun name options hoptions => ?_, fun text origin read hread => ?_,
    fun name key value hkey => hnumbered.extends_insert name value hkey,
    names_merge_eq_append document other, hnumbered.occurrences_merge hother.numbered,
    hnumbered.merge_assoc hother.numbered hthird.numbered, hnumbered.empty_merge,
    merge_empty document⟩
  · have hsection : document.optionsOf name = options := by
      rw [optionsOf, OrderedMap.getD, show document.sections.get? name = some options from hoptions]
      rfl
    exact (hsection ▸ hnumbered name).faithful
  · exact ⟨names_of_parse hread, occurrences_of_parse hread⟩

/-- A section that is opened twice and repeats a key. -/
def reopened : Document :=
  ⟨.ofList [("A", .ofList [("k", "1"), ("k:2", "2")]), ("B", ∅)]⟩

/-- Merged with itself, after a further insertion, the document numbers the occurrences anew. -/
theorem Built.faithful_encoding_reopened :
    Document.parse "[A]\nk: 1\n[B]\n[A]\nk = 2" "source" = .ok reopened ∧ reopened.Built ∧
      ((reopened.insert "B" "k" "3").2.merge reopened).occurrences "A" =
        [("k", "1"), ("k", "2"), ("k", "1"), ("k", "2")] ∧
      ((reopened.insert "B" "k" "3").2.merge reopened).options? "A" =
        some (.ofList [("k", "1"), ("k:2", "2"), ("k:3", "1"), ("k:4", "2")]) ∧
      Options.Faithful (.ofList [("k", "1"), ("k:2", "2"), ("k:3", "1"), ("k:4", "2")]) := by
  have hparse : Document.parse "[A]\nk: 1\n[B]\n[A]\nk = 2" "source" = .ok reopened := rfl
  have hbuilt : reopened.Built := .parse hparse
  have hinserted : (reopened.insert "B" "k" "3").2.Built := hbuilt.insert (by decide)
  have hmerged := hinserted.merge hbuilt
  obtain ⟨-, -, -, -, hoccurrences, -⟩ := hinserted.faithful_encoding hbuilt .empty
  have hoptions : ((reopened.insert "B" "k" "3").2.merge reopened).options? "A" =
      some (.ofList [("k", "1"), ("k:2", "2"), ("k:3", "1"), ("k:4", "2")]) := rfl
  exact ⟨hparse, hbuilt, hoccurrences "A", hoptions,
    (hmerged.faithful_encoding .empty .empty).1 "A" _ hoptions⟩

end Document

end IniCompose
