import IniCompose.Document.ListValue
import IniCompose.Proofs.Text.Lines

/-!
# What lists in values hold

A value that is read as a list is read line by line: each line gives the text before its first `#`,
trimmed, or nothing. So the entries of a value are those of its parts one after the other, and
entries that are written as lines are read as they are, whatever blank lines and comments stand
around them.
-/
namespace IniCompose

open Text

/-- A text that a line of a list can give: not empty, not blank at either end, and without comment
and line feed. -/
structure IsEntry (text : List Char) : Prop where
  nonempty : text ≠ []
  bounded : Bounded text
  hash : '#' ∉ text
  newline : '\n' ∉ text

/-- A line that says nothing: its first character that is not blank, if there is one, opens a
comment. Only `#` opens a comment in a list. -/
def isSilent (line : List Char) : Bool := (line.find? (!isBlank ·)).all (· = '#')

/-- The lines are the entries in their order with silent lines around them, any number of them in
any place. -/
inductive Padded : List String → List String → Prop
  | nil : Padded [] []
  | entry (text : String) {entries lines : List String} : Padded entries lines →
    Padded (text :: entries) (text :: lines)
  | silent (line : String) {entries lines : List String} : '\n' ∉ line.toList →
    isSilent line.toList = true → Padded entries lines → Padded entries (line :: lines)

namespace ListValue

/-! ## One line -/

/-- What a line gives is an entry. -/
theorem isEntry_of_entryOf? {line text : List Char} (hline : '\n' ∉ line)
    (h : entryOf? line = some text) : IsEntry text := by
  unfold entryOf? at h
  split at h
  · cases h
  · next hne =>
    cases h
    obtain ⟨hhash, hcomment⟩ := exists_comment line
    have hsub : ∀ c ∈ trim (dropComment line), c ∈ dropComment line := fun _ => mem_of_mem_trim
    have hnewline : '\n' ∉ dropComment line := by
      intro hmem
      rcases hcomment with heq | ⟨comment, heq⟩ <;> exact hline (by rw [heq]; grind)
    exact ⟨hne, bounded_trim _, fun hmem => hhash (hsub _ hmem), fun hmem => hnewline (hsub _ hmem)⟩

/-- An entry on a line of its own is given back. -/
theorem entryOf?_of_isEntry {text : List Char} (h : IsEntry text) : entryOf? text = some text := by
  have htrim : trim (dropComment text) = text := by
    rw [dropComment_of_notMem h.hash]
    exact trimmed_of_bounded h.bounded
  simp [entryOf?, htrim, h.nonempty]

/-- What stands before a comment decides whether the line is silent. -/
theorem isSilent_iff {line : List Char} :
    isSilent line = true ↔ (dropComment line).find? (!isBlank ·) = none := by
  obtain ⟨hhash, hcomment⟩ := exists_comment line
  have hfind : line.find? (!isBlank ·) = (dropComment line).find? (!isBlank ·) ∨
      line.find? (!isBlank ·) = ((dropComment line).find? (!isBlank ·)).or (some '#') := by
    rcases hcomment with heq | ⟨comment, heq⟩
    · left
      exact congrArg _ heq
    · right
      have hopens : ('#' :: comment).find? (!isBlank ·) = some '#' := rfl
      rw [← hopens, ← List.find?_append, ← heq]
  unfold isSilent
  cases hcontent : (dropComment line).find? (!isBlank ·) with
  | none => rcases hfind with heq | heq <;> simp [heq, hcontent]
  | some c =>
    have hne : c ≠ '#' := by
      rintro rfl
      exact hhash (List.mem_of_find?_eq_some hcontent)
    rcases hfind with heq | heq <;> simp [heq, hcontent, hne]

/-- The silent lines are just those that give nothing. -/
theorem entryOf?_eq_none_iff {line : List Char} :
    entryOf? line = none ↔ isSilent line = true := by
  rw [isSilent_iff, ← head?_trim, List.head?_eq_none_iff, entryOf?]
  split <;> simp_all

/-! ## Many lines -/

/-- It does not matter how lines end: the pieces between line feeds give the entries. -/
theorem entriesOf_eq_filterMap (text : List Char) :
    entriesOf text = (text.splitOn '\n').filterMap entryOf? := by
  have hlines : entriesOf text = (lines text).filterMap entryOf? := by
    rw [entriesOf]
    induction lines text with
    | nil => rfl
    | cons line rest ih =>
      rw [List.map_cons, List.filter_cons, ih, List.filterMap_cons, entryOf?]
      split <;> simp_all
  have hmap (ls : List (List Char)) : ls.filterMap entryOf? = (ls.map entryOf?).filterMap id := by
    rw [List.filterMap_map]
    rfl
  have hempty : entryOf? [] = none := rfl
  have hpieces := map_linesOfPieces entryOf?_dropReturn (List.splitOn_ne_nil '\n' text)
  rw [hlines, hmap, hmap]
  rcases hpieces with hpieces | hpieces
  · rw [hpieces, lines]
  · rw [hpieces, hempty, List.filterMap_append, lines]
    exact (List.append_nil _).symm

theorem entriesOf_append (first second : List Char) :
    entriesOf (first ++ '\n' :: second) = entriesOf first ++ entriesOf second := by
  simp only [entriesOf_eq_filterMap, List.splitOn_append_cons_self, List.filterMap_append]

theorem entriesOf_of_notMem {line : List Char} (h : '\n' ∉ line) :
    entriesOf line = (entryOf? line).toList := by
  rw [entriesOf_eq_filterMap, List.splitOn_eq_singleton h]
  cases hentry : entryOf? line <;> simp [hentry]

theorem isEntry_of_mem {text entry : List Char} (h : entry ∈ entriesOf text) : IsEntry entry := by
  rw [entriesOf_eq_filterMap] at h
  obtain ⟨line, hline, hentry⟩ := List.mem_filterMap.1 h
  exact isEntry_of_entryOf? (newline_notMem_of_mem_splitOn hline) hentry

end ListValue

/-! ## Values -/

section

variable {entries lines : List String}

theorem toList_listEntries (value : String) :
    (listEntries value).map String.toList = ListValue.entriesOf value.toList := by
  simp [listEntries]

theorem listEntries_append_newline (first second : String) :
    listEntries (first ++ "\n" ++ second) = listEntries first ++ listEntries second := by
  have hchars : (first ++ "\n" ++ second).toList = first.toList ++ '\n' :: second.toList := by
    simp
  rw [listEntries, hchars, ListValue.entriesOf_append, List.map_append]
  rfl

theorem isEntry_of_mem_listEntries {value entry : String} (h : entry ∈ listEntries value) :
    IsEntry entry.toList := by
  have hmem : entry.toList ∈ ListValue.entriesOf value.toList := by
    rw [← toList_listEntries]
    exact List.mem_map_of_mem h
  exact ListValue.isEntry_of_mem hmem

/-- A line gives what stands before its comment, trimmed, unless nothing is left. -/
theorem listEntries_append_comment {content comment : String}
    (hline : '\n' ∉ (content ++ comment).toList) (hcontent : '#' ∉ content.toList)
    (hcomment : ∀ c ∈ comment.toList.head?, c = '#') :
    listEntries (content ++ comment) =
      if trim content.toList = [] then [] else [.ofList (trim content.toList)] := by
  have hdrop : ListValue.dropComment (content ++ comment).toList = content.toList := by
    rw [String.toList_append]
    cases hchars : comment.toList with
    | nil => rw [List.append_nil, ListValue.dropComment_of_notMem hcontent]
    | cons c rest =>
      obtain rfl : c = '#' := hcomment c (by simp [hchars])
      exact ListValue.dropComment_append hcontent rest
  rw [listEntries, ListValue.entriesOf_of_notMem hline, ListValue.entryOf?, hdrop]
  split <;> rfl

theorem listEntries_of_isEntry {text : String} (h : IsEntry text.toList) :
    listEntries text = [text] := by
  rw [listEntries, ListValue.entriesOf_of_notMem h.newline, ListValue.entryOf?_of_isEntry h]
  simp

theorem listEntries_of_isSilent {line : String} (hline : '\n' ∉ line.toList)
    (h : isSilent line.toList = true) : listEntries line = [] := by
  rw [listEntries, ListValue.entriesOf_of_notMem hline, ListValue.entryOf?_eq_none_iff.2 h]
  rfl

/-- Lines that are joined give their entries one after the other. -/
theorem listEntries_intercalate (lines : List String) :
    listEntries ("\n".intercalate lines) = lines.flatMap listEntries := by
  induction lines with
  | nil => rfl
  | cons line rest ih =>
    cases rest with
    | nil => simp
    | cons next rest =>
      rw [String.intercalate_cons_cons, listEntries_append_newline, ih]
      rfl

theorem Padded.refl (entries : List String) : Padded entries entries := by
  induction entries with
  | nil => exact .nil
  | cons text rest ih => exact .entry text ih

/-- Induction on the padding: an entry gives itself and a silent line nothing. -/
theorem Padded.listEntries_intercalate (h : Padded entries lines)
    (hentries : ∀ entry ∈ entries, IsEntry entry.toList) :
    listEntries ("\n".intercalate lines) = entries := by
  rw [IniCompose.listEntries_intercalate]
  induction h with
  | nil => rfl
  | entry text _ ih =>
    obtain ⟨htext, hrest⟩ := List.forall_mem_cons.1 hentries
    rw [List.flatMap_cons, listEntries_of_isEntry htext, ih hrest, List.singleton_append]
  | silent line hline hsilent _ ih =>
    rw [List.flatMap_cons, listEntries_of_isSilent hline hsilent, ih hentries, List.nil_append]

end

/-- The entries of two values with a line feed between them are those of the one and those of the
other, and a single line gives the text before its comment. Every entry is a trimmed text without
`#` and line feed, so entries that are written below each other are read as they are, with silent
lines around them or without. -/
theorem listEntries_concatenates :
    (∀ first second : String,
      listEntries (first ++ "\n" ++ second) = listEntries first ++ listEntries second) ∧
    (∀ value : String, ∀ entry ∈ listEntries value, IsEntry entry.toList) ∧
    (∀ value : String, listEntries ("\n".intercalate (listEntries value)) = listEntries value) ∧
    (∀ (value : String) (lines : List String), Padded (listEntries value) lines →
      listEntries ("\n".intercalate lines) = listEntries value) ∧
    ∀ content comment : String, '\n' ∉ (content ++ comment).toList → '#' ∉ content.toList →
      (∀ c ∈ comment.toList.head?, c = '#') →
      listEntries (content ++ comment) =
        if trim content.toList = [] then [] else [.ofList (trim content.toList)] := by
  have hpadded (value : String) (lines : List String) (h : Padded (listEntries value) lines) :
      listEntries ("\n".intercalate lines) = listEntries value :=
    h.listEntries_intercalate fun _ => isEntry_of_mem_listEntries
  refine ⟨listEntries_append_newline, fun _ _ => isEntry_of_mem_listEntries, fun value => ?_,
    hpadded, fun _ _ => listEntries_append_comment⟩
  exact hpadded value _ (.refl _)

/-- A list of which the last line ends in a return that no line feed follows. -/
def modulesList : String := "gcc/10.1.0   # compiler\r\n\n# disabled\n ; openmpi 4 \r"

/-- The entries of `modulesList` with blank lines and comments around them. -/
def modulesLines : List String :=
  ["  # first", "gcc/10.1.0", "", "\t", "# between; #", "; openmpi 4", "#"]

theorem listEntries_concatenates_modules :
    listEntries modulesList = ["gcc/10.1.0", "; openmpi 4"] ∧
      IsEntry "; openmpi 4".toList ∧ Padded (listEntries modulesList) modulesLines ∧
      listEntries ("\n".intercalate modulesLines) = listEntries modulesList ∧
      listEntries (" gcc/10.1.0 " ++ "#\r") = ["gcc/10.1.0"] := by
  have hlist : listEntries modulesList = ["gcc/10.1.0", "; openmpi 4"] := by rfl
  have hlines : Padded (listEntries modulesList) modulesLines := by
    rw [hlist]
    refine .silent _ (by decide) (by decide) (.entry _ (.silent _ (by decide) (by decide) ?_))
    refine .silent _ (by decide) (by decide) (.silent _ (by decide) (by decide) ?_)
    exact .entry _ (.silent _ (by decide) (by decide) .nil)
  obtain ⟨-, hentry, -, hpadded, hline⟩ := listEntries_concatenates
  refine ⟨hlist, hentry modulesList _ (by simp [hlist]), hlines, hpadded _ _ hlines, ?_⟩
  exact hline " gcc/10.1.0 " "#\r" (by decide) (by decide) (by simp)

end IniCompose
